import TreeWalk.Proofs.Likeness.Tree
import TreeWalk.Resolution

/-! Trees that are alike are resolved alike. -/

namespace TreeWalk

/-- A likeness that keeps identities, knows the hop counts of a table, and never spells two names
in the same way, in whatever scopes they are. -/
structure Likeness.Static (l : Likeness) (table : HopTable) : Prop where
  node : ∀ {id id' d}, l.node id id' d → id' = id ∧ table[id]? = d
  injective : ∀ {sort sort' n n' k k'}, l.spelled sort n n' → l.spelled sort' k k' →
    n' = k' → n = k
  unique : ∀ {sort n n' n''}, l.spelled sort n n' → l.spelled sort n n'' → n' = n''

/-- Names noted in a scope, ready or not on both sides. -/
def Scope.Alike (l : Likeness) (sort : Bool) (scope scope' : Scope) : Prop :=
  List.Forall₂ (fun entry entry' => l.spelled sort entry.1 entry'.1 ∧ entry.2 = entry'.2)
    scope scope'

/-- Scopes seen from a place with the given outlook. -/
inductive Scope.AllAlike (l : Likeness) : Outlook → List Scope → List Scope → Prop where
  | nil {o} : Scope.AllAlike l o [] []
  | cons {o scope scope' scopes scopes'} : Scope.Alike l (o 0) scope scope' →
      Scope.AllAlike l (fun d => o (d + 1)) scopes scopes' →
      Scope.AllAlike l o (scope :: scopes) (scope' :: scopes')

/-- Findings with the same hop counts. -/
inductive Finding.Alike : Finding → Finding → Prop where
  | reference {access id name name' hops} :
      Finding.Alike (.reference ⟨access, id, name, hops⟩) (.reference ⟨access, id, name', hops⟩)
  | error {d d'} : Finding.Alike (.error d) (.error d')

section Scopes

variable {l : Likeness} {table : HopTable} {scope scope' : Scope} {scopes scopes' : List Scope}
  {o : Outlook} {sort sort' : Bool} {n n' : String}

/-- A name is found on both sides with the same mark, if the scope is of the sort it is spelled
for. -/
theorem Scope.Alike.lookup (hl : l.Static table) (h : Scope.Alike l sort scope scope')
    (hn : l.spelled sort n n') : scope'.lookup n' = scope.lookup n := by
  induction h with
  | nil => rfl
  | @cons entry entry' _ _ hentry _ ih =>
    rw [List.lookup_cons, List.lookup_cons]
    by_cases hsame : n = entry.1
    · have hsame' : n' = entry'.1 := hl.unique hn (hsame ▸ hentry.1)
      simp only [beq_iff_eq.mpr hsame, beq_iff_eq.mpr hsame', hentry.2]
    · have hsame' : n' ≠ entry'.1 := fun heq => hsame (hl.injective hn hentry.1 heq)
      simp only [beq_false_of_ne hsame, beq_false_of_ne hsame', ih]

/-- A name is found in no scope, of whatever sort, that does not have it on the other side. -/
theorem Scope.Alike.lookup_eq_none (hl : l.Static table) (h : Scope.Alike l sort scope scope')
    (hn : l.spelled sort' n n') (hnone : scope.lookup n = none) : scope'.lookup n' = none := by
  induction h with
  | nil => rfl
  | @cons entry entry' _ _ hentry _ ih =>
    rw [List.lookup_cons] at hnone ⊢
    split at hnone
    · cases hnone
    · next hne =>
      have hne' : n' ≠ entry'.1 := fun heq => by
        simp [hl.injective hn hentry.1 heq] at hne
      simp only [beq_false_of_ne hne']
      exact ih hnone

/-- The innermost scope tells the same about a name that is spelled for the scope where it is
found, which may be one further out. -/
theorem Scope.Alike.lookup_innermost (hl : l.Static table) (h : Scope.Alike l (o 0) scope scope')
    (hn : l.spelled (o.sortAt (Scope.hops? (scope :: scopes) n)) n n') :
    scope'.lookup n' = scope.lookup n := by
  rw [Scope.hops?, List.findIdx?_cons] at hn
  cases hfound : scope.lookup n with
  | some ready =>
    simp only [hfound, Option.isSome_some, ↓reduceIte] at hn
    rw [h.lookup hl hn, hfound]
  | none => exact h.lookup_eq_none hl hn hfound

/-- A name spelled for the scope where it is found is found just as far outward. -/
theorem Scope.AllAlike.hops? (hl : l.Static table) (h : Scope.AllAlike l o scopes scopes')
    (hn : l.spelled (o.sortAt (Scope.hops? scopes n)) n n') :
    Scope.hops? scopes' n' = Scope.hops? scopes n := by
  induction h with
  | nil => rfl
  | @cons o scope scope' scopes scopes' hscope _ ih =>
    have hinnermost := hscope.lookup_innermost hl hn
    rw [Scope.hops?, Scope.hops?, List.findIdx?_cons, List.findIdx?_cons, hinnermost]
    rw [Scope.hops?, List.findIdx?_cons] at hn
    split
    · rfl
    · next hfound =>
      rw [if_neg hfound] at hn
      refine congrArg (Option.map _) (ih ?_)
      rw [Scope.hops?]
      cases hrest : List.findIdx? (fun scope => (scope.lookup n).isSome) scopes with
      | none =>
        rw [hrest] at hn
        exact hn
      | some d =>
        rw [hrest] at hn
        exact hn

theorem Scope.AllAlike.inInitializer (hl : l.Static table) (h : Scope.AllAlike l o scopes scopes')
    (hn : l.spelled (o.sortAt (Scope.hops? scopes n)) n n') :
    Scope.inInitializer scopes' n' = Scope.inInitializer scopes n := by
  cases h with
  | nil => rfl
  | cons hscope _ =>
    exact congrArg (fun ready => decide (ready = some false)) (hscope.lookup_innermost hl hn)

theorem Scope.AllAlike.note {name name' : Token} (h : Scope.AllAlike l o scopes scopes')
    (hname : l.spelled (o 0) name.lexeme name'.lexeme) (ready : Bool) :
    Scope.AllAlike l o (Scope.note name ready scopes) (Scope.note name' ready scopes') := by
  cases h with
  | nil => exact .nil
  | cons hscope hscopes => exact .cons (.cons ⟨hname, rfl⟩ hscope) hscopes

theorem Scope.AllAlike.noteAll {params params' : List Token}
    (hparams : List.Forall₂ (l.Name (o 0)) params params') (h : Scope.AllAlike l o scopes scopes') :
    Scope.AllAlike l o (params.foldl (fun scopes p => Scope.note p true scopes) scopes)
      (params'.foldl (fun scopes p => Scope.note p true scopes) scopes') := by
  induction hparams generalizing scopes scopes' with
  | nil => exact h
  | cons hname _ ih => exact ih (h.note hname.spelled true)

theorem Scope.AllAlike.opened (sort : Bool) (h : Scope.AllAlike l o scopes scopes') :
    Scope.AllAlike l (o.enter sort) ([] :: scopes) ([] :: scopes') :=
  .cons .nil h

end Scopes

section Findings

variable {l : Likeness} {table : HopTable}

/-- The references among findings have the hop counts that a table records. -/
def Finding.Recorded (table : HopTable) (found : List Finding) : Prop :=
  ∀ r, .reference r ∈ found → table[r.id]? = r.hops

theorem Finding.Recorded.of_append {found found' : List Finding}
    (h : Recorded table (found ++ found')) : Recorded table found ∧ Recorded table found' :=
  ⟨fun r hr => h r (List.mem_append_left _ hr), fun r hr => h r (List.mem_append_right _ hr)⟩

/-- What is found of a variable, if the likeness has the hop count that is found. -/
theorem Likeness.Static.of_recorded (hl : l.Static table) {o : Outlook} {id id' : NodeId}
    {hops : Option Nat} {name name' : TreeWalk.Token} {access : Access} {scopes scopes' : List Scope}
    (hid : l.node id id' hops) (hname : l.Name (o.sortAt hops) name name')
    (hs : Scope.AllAlike l o scopes scopes') {found : List Finding}
    (hmem : .reference ⟨access, id, name, Scope.hops? scopes name.lexeme⟩ ∈ found)
    (hrecorded : Finding.Recorded table found) :
    id' = id ∧ Scope.hops? scopes' name'.lexeme = Scope.hops? scopes name.lexeme ∧
      Scope.inInitializer scopes' name'.lexeme = Scope.inInitializer scopes name.lexeme := by
  obtain ⟨rfl, hhops⟩ := hl.node hid
  have hfound : hops = Scope.hops? scopes name.lexeme := hhops.symm.trans (hrecorded _ hmem)
  have hspelled := hname.spelled
  rw [hfound] at hspelled
  exact ⟨rfl, hs.hops? hl hspelled, hs.inInitializer hl hspelled⟩

mutual

theorem Expr.findings_alike (hl : l.Static table) {o : Outlook} {scopes scopes' : List Scope}
    {e e' : Expr} (he : Expr.Alike l o e e') (hs : Scope.AllAlike l o scopes scopes')
    (hrecorded : Finding.Recorded table (e.findings scopes)) :
    List.Forall₂ Finding.Alike (e.findings scopes) (e'.findings scopes') := by
  match he with
  | .literal => exact .nil
  | .grouping he =>
    simp only [Expr.findings] at hrecorded ⊢
    exact Expr.findings_alike hl he hs hrecorded
  | .unary _ he =>
    simp only [Expr.findings] at hrecorded ⊢
    exact Expr.findings_alike hl he hs hrecorded
  | .binary he _ he' =>
    have hparts := hrecorded.of_append
    exact List.rel_append (Expr.findings_alike hl he hs hparts.1)
      (Expr.findings_alike hl he' hs hparts.2)
  | .logical he _ he' =>
    have hparts := hrecorded.of_append
    exact List.rel_append (Expr.findings_alike hl he hs hparts.1)
      (Expr.findings_alike hl he' hs hparts.2)
  | @Expr.Alike.var _ _ id id' _ name name' hid hname =>
    have hmem : .reference ⟨.read, id, name, Scope.hops? scopes name.lexeme⟩ ∈
        (Expr.var id name).findings scopes := by
      rw [Expr.findings]
      split <;> simp
    obtain ⟨rfl, hhops, hready⟩ := hl.of_recorded hid hname hs hmem hrecorded
    rw [Expr.findings, Expr.findings, hhops, hready]
    split
    · exact .cons .error (.cons .reference .nil)
    · exact .cons .reference .nil
  | @Expr.Alike.assign _ _ id id' _ name name' value _ hid hname he =>
    have hmem : .reference ⟨.write, id, name, Scope.hops? scopes name.lexeme⟩ ∈
        (Expr.assign id name value).findings scopes := by
      rw [Expr.findings]
      simp
    obtain ⟨rfl, hhops, -⟩ := hl.of_recorded hid hname hs hmem hrecorded
    have hvalue := Expr.findings_alike hl he hs hrecorded.of_append.1
    rw [Expr.findings, Expr.findings, hhops]
    exact List.rel_append hvalue (.cons .reference .nil)
  | .call he _ hes =>
    have hparts := hrecorded.of_append
    exact List.rel_append (Expr.findings_alike hl he hs hparts.1)
      (Expr.findingsOfAll_alike hl hes hs hparts.2)

theorem Expr.findingsOfAll_alike (hl : l.Static table) {o : Outlook} {scopes scopes' : List Scope}
    {es es' : List Expr} (hes : Expr.AllAlike l o es es') (hs : Scope.AllAlike l o scopes scopes')
    (hrecorded : Finding.Recorded table (Expr.findingsOfAll scopes es)) :
    List.Forall₂ Finding.Alike (Expr.findingsOfAll scopes es) (Expr.findingsOfAll scopes' es') := by
  match hes with
  | .nil => exact .nil
  | .cons he hes =>
    have hparts := hrecorded.of_append
    exact List.rel_append (Expr.findings_alike hl he hs hparts.1)
      (Expr.findingsOfAll_alike hl hes hs hparts.2)

end

theorem Stmt.findingsOfOption_alike (hl : l.Static table) {o : Outlook}
    {scopes scopes' : List Scope} {e e' : Option Expr} (he : Expr.OptionAlike l o e e')
    (hs : Scope.AllAlike l o scopes scopes')
    (hrecorded : Finding.Recorded table (Stmt.findingsOfOption scopes e)) :
    List.Forall₂ Finding.Alike (Stmt.findingsOfOption scopes e)
      (Stmt.findingsOfOption scopes' e') := by
  cases he with
  | none => exact .nil
  | some he => exact Expr.findings_alike hl he hs hrecorded

mutual

/-- The scopes after statements that are alike go on to be alike. -/
theorem Stmt.findings_alike (hl : l.Static table) {o : Outlook} {scopes scopes' : List Scope}
    {s s' : Stmt} (h : Stmt.Alike l o s s') (hs : Scope.AllAlike l o scopes scopes')
    (inFunction : Bool) (hrecorded : Finding.Recorded table (s.findings inFunction scopes).2) :
    Scope.AllAlike l o (s.findings inFunction scopes).1 (s'.findings inFunction scopes').1 ∧
      List.Forall₂ Finding.Alike (s.findings inFunction scopes).2
        (s'.findings inFunction scopes').2 := by
  match h with
  | .expression he =>
    simp only [Stmt.findings] at hrecorded ⊢
    exact ⟨hs, Expr.findings_alike hl he hs hrecorded⟩
  | .print he =>
    simp only [Stmt.findings] at hrecorded ⊢
    exact ⟨hs, Expr.findings_alike hl he hs hrecorded⟩
  | .declare hname he =>
    simp only [Stmt.findings] at hrecorded ⊢
    -- The name is noted twice: as declared before the initializer is resolved, as ready after it.
    have hnoted := hs.note hname.spelled false
    exact ⟨hnoted.note hname.spelled true, Stmt.findingsOfOption_alike hl he hnoted hrecorded⟩
  | .block sort hbody =>
    simp only [Stmt.findings] at hrecorded ⊢
    exact ⟨hs, (Stmt.findingsOfAll_alike hl hbody (hs.opened sort) inFunction hrecorded).2⟩
  | .ifThen he ht =>
    simp only [Stmt.findings] at hrecorded ⊢
    obtain ⟨hcondition, hthen⟩ := hrecorded.of_append
    have hbranch := Stmt.findings_alike hl ht hs inFunction hthen
    exact ⟨hbranch.1, List.rel_append (Expr.findings_alike hl he hs hcondition) hbranch.2⟩
  | .ifElse he ht ht' =>
    simp only [Stmt.findings] at hrecorded ⊢
    obtain ⟨hfirst, helse⟩ := hrecorded.of_append
    obtain ⟨hcondition, hthen⟩ := hfirst.of_append
    have hbranch := Stmt.findings_alike hl ht hs inFunction hthen
    have hbranch' := Stmt.findings_alike hl ht' hbranch.1 inFunction helse
    have hcondition' := Expr.findings_alike hl he hs hcondition
    exact ⟨hbranch'.1, List.rel_append (List.rel_append hcondition' hbranch.2) hbranch'.2⟩
  | .whileLoop he ht =>
    simp only [Stmt.findings] at hrecorded ⊢
    obtain ⟨hcondition, hbody⟩ := hrecorded.of_append
    have hround := Stmt.findings_alike hl ht hs inFunction hbody
    exact ⟨hround.1, List.rel_append (Expr.findings_alike hl he hs hcondition) hround.2⟩
  | .function sort _ hspelled hparams hbody =>
    simp only [Stmt.findings] at hrecorded ⊢
    have hnoted := hs.note hspelled true
    have hinside := Scope.AllAlike.noteAll hparams (hnoted.opened sort)
    exact ⟨hnoted, (Stmt.findingsOfAll_alike hl hbody hinside true hrecorded).2⟩
  | .returnFrom _ he =>
    simp only [Stmt.findings] at hrecorded ⊢
    have hvalue := Stmt.findingsOfOption_alike hl he hs hrecorded.of_append.2
    refine ⟨hs, List.rel_append ?_ hvalue⟩
    split
    · exact .nil
    · exact .cons .error .nil

theorem Stmt.findingsOfAll_alike (hl : l.Static table) {o : Outlook}
    {scopes scopes' : List Scope} {ss ss' : List Stmt} (h : Stmt.AllAlike l o ss ss')
    (hs : Scope.AllAlike l o scopes scopes') (inFunction : Bool)
    (hrecorded : Finding.Recorded table (Stmt.findingsOfAll inFunction scopes ss).2) :
    Scope.AllAlike l o (Stmt.findingsOfAll inFunction scopes ss).1
      (Stmt.findingsOfAll inFunction scopes' ss').1 ∧
      List.Forall₂ Finding.Alike (Stmt.findingsOfAll inFunction scopes ss).2
        (Stmt.findingsOfAll inFunction scopes' ss').2 := by
  match h with
  | .nil => exact ⟨hs, .nil⟩
  | .cons h h' =>
    simp only [Stmt.findingsOfAll] at hrecorded ⊢
    obtain ⟨hfirst, hrest⟩ := hrecorded.of_append
    have hstatement := Stmt.findings_alike hl h hs inFunction hfirst
    have hothers := Stmt.findingsOfAll_alike hl h' hstatement.1 inFunction hrest
    exact ⟨hothers.1, List.rel_append hstatement.2 hothers.2⟩

end

/-- Findings that are alike make the same table, and errors on one side only if on the other. -/
theorem Finding.tables_eq {found found' : List Finding}
    (h : List.Forall₂ Finding.Alike found found') :
    (found.filterMap error? = [] ↔ found'.filterMap error? = []) ∧
      ∀ start : HopTable, (found.filterMap reference?).foldl Reference.record start =
        (found'.filterMap reference?).foldl Reference.record start := by
  induction h with
  | nil => exact ⟨Iff.rfl, fun _ => rfl⟩
  | cons hfinding _ ih =>
    cases hfinding with
    | reference =>
      refine ⟨ih.1, fun start => ?_⟩
      simp only [List.filterMap_cons, reference?, List.foldl_cons]
      exact ih.2 _
    | error => exact ⟨by simp [error?], fun start => ih.2 start⟩

/-- Programs that are alike have the same hop counts, and both have errors or none has. -/
theorem resolve_alike {program program' : List Stmt} (hl : l.Static (resolve program).hops)
    (h : Stmt.AllAlike l .plain program program')
    (hrecorded : Finding.Recorded (resolve program).hops
      (Stmt.findingsOfAll false [] program).2) :
    ((resolve program).errors = [] ↔ (resolve program').errors = []) ∧
      (resolve program).hops = (resolve program').hops := by
  have hfindings := (Stmt.findingsOfAll_alike hl h .nil false hrecorded).2
  have htables := Finding.tables_eq hfindings
  exact ⟨htables.1, htables.2 ∅⟩

end Findings

end TreeWalk
