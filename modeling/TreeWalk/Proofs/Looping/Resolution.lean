import TreeWalk.Proofs.Looping.Direct
import TreeWalk.Proofs.Padding.Resolution
import TreeWalk.Proofs.Resolution.Replacement

/-! The variables of a loop: where they are found if the loop has one scope for all its clauses, and
where in the blocks of its tree. -/

namespace TreeWalk

theorem Scope.Padded.refl (scopes : List Scope) : Scope.Padded id scopes scopes := by
  induction scopes with
  | nil => exact .nil
  | cons scope scopes ih =>
    rw [← Gaps.enter_id]
    exact .enter scope ih

/-- A table that says of every reference what was found for it, and nothing else. -/
theorem Finding.exists_recorded {found : List Finding} (hnodup : (ids found).Nodup) :
    ∃ table : HopTable, Recorded table found ∧ ∀ i, i ∉ ids found → table[i]? = none := by
  refine ⟨(found.filterMap reference?).foldl Reference.record ∅, fun r hr => ?_, fun i hi => ?_⟩
  · exact Resolution.getElem?_foldl hnodup (List.mem_filterMap.mpr ⟨_, hr, rfl⟩) (by simp)
  · exact (Resolution.getElem?_foldl_of_not_mem hi).trans (by simp)

/-- There is no report in a part of findings without reports. -/
theorem Finding.Clean.of_subset {found found' : List Finding} (h : Clean found)
    (hsub : found' ⊆ found) : Clean found' :=
  List.filterMap_eq_nil_iff.mpr fun f hf => List.filterMap_eq_nil_iff.mp h f (hsub hf)

namespace ForLoop

variable (l : ForLoop)

/-- Body and increment as they are in the tree. -/
def turn : Stmt :=
  match l.increment with
  | some e => .block [l.body, .expression e]
  | none => l.body

/-- The while loop in the tree. -/
def loop : Stmt :=
  .whileLoop (l.condition.getD (.literal (.bool true))) l.turn

/-- The tree with a block around the loop also where there is no initializer. -/
def framed : Stmt :=
  .block (l.initializer.toList ++ [l.loop])

theorem tree_of_none (h : l.initializer = none) : l.tree = l.loop := by
  rw [tree, h]
  rfl

theorem tree_of_some {s : Stmt} (h : l.initializer = some s) : l.tree = l.framed := by
  rw [tree, framed, h]
  rfl

theorem regular_loop : l.loop.Regular := by
  rw [loop, turn]
  cases l.increment with
  | none => exact ⟨l.isDeclaration_body, l.regular_body⟩
  | some e => exact ⟨rfl, l.regular_body, trivial, trivial⟩

/-- The block around a loop without initializer is a further one. -/
theorem padded_framed : Stmt.Padded (fun _ _ => True) id l.tree l.framed := by
  cases h : l.initializer with
  | none =>
    have hframed : l.framed = .block [l.loop] := by
      rw [framed, h]
      rfl
    rw [l.tree_of_none h, hframed]
    exact .wrapped (l.loop.padded_self (.inr ⟨rfl, l.regular_loop⟩) fun _ _ _ => trivial)
  | some s =>
    rw [l.tree_of_some h]
    exact l.framed.padded_self (.inl rfl) fun _ _ _ => trivial

theorem ids_framed : l.framed.ids = l.tree.ids :=
  l.padded_framed.ids_eq

/-- With an increment, the tree has a further block around body and increment. -/
def gaps : Gaps :=
  match l.increment with
  | some _ => Gaps.under id
  | none => id

/-- The scopes of body and increment in the tree, by those of the loop. -/
def roundScopes (scopes : List Scope) : List Scope :=
  match l.increment with
  | some _ => [] :: scopes
  | none => scopes

theorem padded_roundScopes (scopes : List Scope) :
    Scope.Padded l.gaps scopes (l.roundScopes scopes) := by
  rw [gaps, roundScopes]
  cases l.increment with
  | none => exact .refl scopes
  | some e => exact .under (.refl scopes)

section Findings

variable (inFunction : Bool) (scopes : List Scope)

/-- What is found of the initializer, in a scope opened for the loop. -/
def opening : List Scope × List Finding :=
  Stmt.findingsOfAll inFunction ([] :: scopes) l.initializer.toList

/-- What is found of the clauses that belong to the rounds. -/
def findingsOfRound (condition round : List Scope) : List Finding :=
  Stmt.findingsOfOption condition l.condition ++ ((l.body.findings inFunction round).2 ++
    Stmt.findingsOfOption round l.increment)

theorem findings_clauses : ((Stmt.block l.clauses).findings inFunction scopes).2 =
    (l.opening inFunction scopes).2 ++
      l.findingsOfRound inFunction (l.opening inFunction scopes).1
        (l.opening inFunction scopes).1 := by
  have hbody := Stmt.scopes_findings l.isDeclaration_body l.regular_body inFunction
  rw [clauses, opening, findingsOfRound]
  cases l.initializer <;> cases l.condition <;> cases l.increment <;>
    simp [Stmt.findings, Stmt.findingsOfAll, Stmt.findingsOfOption, hbody]

theorem findings_framed : (l.framed.findings inFunction scopes).2 =
    (l.opening inFunction scopes).2 ++
      l.findingsOfRound inFunction (l.opening inFunction scopes).1
        (l.roundScopes (l.opening inFunction scopes).1) := by
  have hbody := Stmt.scopes_findings l.isDeclaration_body l.regular_body inFunction
  rw [framed, loop, turn, opening, findingsOfRound, roundScopes]
  cases l.initializer <;> cases l.condition <;> cases l.increment <;>
    simp [Stmt.findings, Stmt.findingsOfAll, Stmt.findingsOfOption, Expr.findings, hbody]

end Findings

/-- The hop counts of a loop with one scope in the first table, and of its tree in the second one:
only those that lead out of the body or of the increment may differ. -/
structure Framed (table table' : HopTable) : Prop where
  initializer : Stmt.AllPadded (table.Padded table') id l.initializer.toList l.initializer.toList
  condition : ∀ i ∈ Expr.idsOfOption l.condition, table.Padded table' id i
  body : Stmt.Padded (table.Padded table') l.gaps l.body l.body
  increment : ∀ i ∈ Expr.idsOfOption l.increment, table.Padded table' l.gaps i

variable {l} {table table' : HopTable} {inFunction : Bool} {scopes : List Scope}

/-- The variables of a loop, in the order in which they are resolved. -/
theorem ids_tree : l.tree.ids = Stmt.idsOfAll l.initializer.toList ++
    (Expr.idsOfOption l.condition ++ (l.body.ids ++ Expr.idsOfOption l.increment)) := by
  rw [tree]
  cases l.initializer <;> cases l.condition <;> cases l.increment <;>
    simp [Stmt.ids, Stmt.idsOfAll, Stmt.forLoop, Expr.ids, Expr.idsOfOption]

theorem Framed.mono {table₁ table₁' : HopTable} (h : l.Framed table table')
    (heq : ∀ i ∈ l.tree.ids, table₁[i]? = table[i]? ∧ table₁'[i]? = table'[i]?) :
    l.Framed table₁ table₁' := by
  have hnode (g : Gaps) (i : NodeId) (hi : i ∈ l.tree.ids) (hpadded : table.Padded table' g i) :
      table₁.Padded table₁' g i := by
    rw [HopTable.Padded, (heq i hi).1, (heq i hi).2]
    exact hpadded
  simp only [ids_tree, List.mem_append] at hnode
  refine ⟨h.initializer.mono fun g i hi => hnode g i (.inl hi), fun i hi => ?_,
    h.body.mono fun g i hi => hnode g i (.inr (.inr (.inl hi))), fun i hi => ?_⟩
  · exact hnode id i (.inr (.inl hi)) (h.condition i hi)
  · exact hnode l.gaps i (.inr (.inr (.inr hi))) (h.increment i hi)

/-- Without a report on the loop with one scope, its tree has the hop counts that its further block
asks for. -/
theorem findings_widened
    (hclean : Finding.Clean ((Stmt.block l.clauses).findings inFunction scopes).2) :
    Finding.Widened table table' ((Stmt.block l.clauses).findings inFunction scopes).2
      (l.framed.findings inFunction scopes).2 (l.Framed table table') := by
  rw [l.findings_clauses, findingsOfRound] at hclean
  rw [l.findings_clauses, l.findings_framed, findingsOfRound, findingsOfRound]
  obtain ⟨hfirst, hrest⟩ := Finding.clean_append.mp hclean
  obtain ⟨hcondition, hround⟩ := Finding.clean_append.mp hrest
  obtain ⟨hbody, hincrement⟩ := Finding.clean_append.mp hround
  have hplain (ss : List Stmt) : Stmt.AllPadded (fun _ _ => True) id ss ss :=
    Stmt.allPadded_self ss rfl fun _ _ _ => trivial
  have hinner := l.padded_roundScopes (l.opening inFunction scopes).1
  have hround : Stmt.Padded (fun _ _ => True) l.gaps l.body l.body :=
    l.body.padded_self (.inr ⟨l.isDeclaration_body, l.regular_body⟩) fun _ _ _ => trivial
  refine (Finding.Widened.append
    (Stmt.findingsOfAll_widened (hplain l.initializer.toList) (.refl ([] :: scopes)) inFunction
      hfirst).2
    (.append (Stmt.findingsOfOption_widened (.refl _) l.condition hcondition)
      (.append (Stmt.findings_widened hround hinner inFunction hbody).2
        (Stmt.findingsOfOption_widened hinner l.increment hincrement)))).imp
    fun ⟨hinitializer, hcondition, hbody, hincrement⟩ => ?_
  exact ⟨hinitializer.mono fun _ _ _ h => h.2, hcondition,
    hbody.mono fun _ _ _ h => h.2, hincrement⟩

/-- The clauses have the faults of the tree. -/
theorem faults_clauses (inFunction inScope : Bool) :
    (Stmt.block l.clauses).faults inFunction inScope = l.tree.faults inFunction inScope := by
  have hbody := l.body.faults_congr l.isDeclaration_body l.regular_body inFunction inScope true
  rw [clauses, tree]
  cases l.initializer <;> cases l.condition <;> cases l.increment <;>
    simp [Stmt.faults, Stmt.faultsOfAll, Stmt.forLoop, hbody]

/-- With the tree of a loop in it or with its clauses in one scope, a program has the same
reports. -/
theorem errors_resolve_clauses {program program' : List Stmt}
    (h : Stmt.ReplacedIn l.tree (.block l.clauses) program program') :
    (resolve program').errors = (resolve program).errors := by
  rw [errors_resolve, errors_resolve]
  exact h.faults_eq l.faults_clauses false false

/-- Of the variables of a loop three tables speak: that of the program with its tree, one for the
tree with a block around it in any case, and that of the program with its clauses in one scope. -/
theorem exists_framed {program program' : List Stmt}
    (h : Stmt.ReplacedIn l.tree (.block l.clauses) program program')
    (hnodup : (Stmt.idsOfAll program).Nodup) (hresolved : (resolve program).errors = []) :
    ∃ table : HopTable, (∀ i, i ∉ l.tree.ids → table[i]? = none) ∧
      Stmt.Padded ((resolve program).hops.Padded table) id l.tree l.framed ∧
      l.Framed (resolve program').hops table := by
  have hnodup' : (Stmt.idsOfAll program').Nodup := by rwa [h.ids_eq l.ids_clauses]
  have hresolved' : (resolve program').errors = [] := by rwa [errors_resolve_clauses h]
  -- Both statements are walked in the same scopes.
  obtain ⟨inFunction, scopes, htree, hclauses⟩ := h.exists_findings false []
  have hclean : Finding.Clean (l.tree.findings inFunction scopes).2 := .of_subset hresolved htree
  have hclean' : Finding.Clean ((Stmt.block l.clauses).findings inFunction scopes).2 :=
    .of_subset hresolved' hclauses
  have hids : Finding.ids (l.framed.findings inFunction scopes).2 = l.tree.ids := by
    rw [Stmt.ids_findings, ids_framed]
  have hnodup_tree : l.tree.ids.Nodup := h.nodup hnodup
  obtain ⟨table, hrecorded, hothers⟩ := Finding.exists_recorded (hids ▸ hnodup_tree)
  refine ⟨table, hids ▸ hothers, ?_, ?_⟩
  · have hwidened : Finding.Widened (resolve program).hops table
        (l.tree.findings inFunction scopes).2 (l.framed.findings inFunction scopes).2 _ :=
      (Stmt.findings_widened l.padded_framed (.refl scopes) inFunction hclean).2
    have hpadded := hwidened.recorded (fun _ hr => resolve_hops hnodup (htree hr)) hrecorded
    exact hpadded.mono fun _ _ _ h => h.2
  · exact (findings_widened hclean').recorded (fun _ hr => resolve_hops hnodup' (hclauses hr))
      hrecorded

end ForLoop

end TreeWalk
