import TreeWalk.Proofs.Likeness.Resolution
import TreeWalk.Proofs.Padding.Tree
import TreeWalk.Proofs.Resolution.Table

/-! A further block around a statement makes the hop counts that lead out of it grow by one, and
nothing else. -/

namespace TreeWalk

/-- Scopes of which the second have further empty ones among them. -/
inductive Scope.Padded : Gaps → List Scope → List Scope → Prop where
  | nil : Scope.Padded id [] []
  | enter {g scopes scopes'} (scope : Scope) : Scope.Padded g scopes scopes' →
      Scope.Padded g.enter (scope :: scopes) (scope :: scopes')
  | under {g scopes scopes'} : Scope.Padded g scopes scopes' →
      Scope.Padded g.under scopes ([] :: scopes')

namespace Scope.Padded

variable {g : Gaps} {scopes scopes' : List Scope}

theorem hops? (h : Scope.Padded g scopes scopes') (name : String) :
    Scope.hops? scopes' name = (Scope.hops? scopes name).map g := by
  induction h with
  | nil => rfl
  | @enter g scopes scopes' scope _ ih =>
    rw [Scope.hops?, Scope.hops?] at ih ⊢
    rw [List.findIdx?_cons, List.findIdx?_cons]
    split
    · rfl
    · rw [ih, Option.map_map, Option.map_map]
      rfl
  | @under g scopes scopes' _ ih =>
    rw [Scope.hops?] at ih ⊢
    rw [List.findIdx?_cons, ih]
    simp only [List.lookup_nil, Option.isSome_none, Bool.false_eq_true, ↓reduceIte,
      Option.map_map]
    rfl

/-- In a further scope nothing is being initialized. -/
theorem inInitializer (h : Scope.Padded g scopes scopes') {name : String}
    (hnot : Scope.inInitializer scopes name = false) :
    Scope.inInitializer scopes' name = false := by
  cases h with
  | nil => exact hnot
  | enter scope _ => exact hnot
  | under _ => rfl

theorem note (h : Scope.Padded g scopes scopes') (hg : g 0 = 0) (name : Token) (ready : Bool) :
    Scope.Padded g (Scope.note name ready scopes) (Scope.note name ready scopes') := by
  cases h with
  | nil => exact .nil
  | enter scope h => exact .enter ((name.lexeme, ready) :: scope) h
  | under _ => exact absurd hg (Nat.succ_ne_zero _)

theorem noteAll (h : Scope.Padded g scopes scopes') (hg : g 0 = 0) (params : List Token) :
    Scope.Padded g (params.foldl (fun scopes p => Scope.note p true scopes) scopes)
      (params.foldl (fun scopes p => Scope.note p true scopes) scopes') := by
  induction params generalizing scopes scopes' with
  | nil => exact h
  | cons p params ih => exact ih (h.note hg p true)

end Scope.Padded

namespace Finding

/-- There is no report among findings. -/
def Clean (found : List Finding) : Prop :=
  found.filterMap error? = []

theorem clean_append {found found' : List Finding} :
    Clean (found ++ found') ↔ Clean found ∧ Clean found' := by
  rw [Clean, List.filterMap_append, List.append_eq_nil_iff]
  rfl

/-- Findings that are the same but for hop counts. -/
inductive Padded (g : Gaps) : Finding → Finding → Prop where
  | reference {access id name hops} : Padded g (.reference ⟨access, id, name, hops⟩)
      (.reference ⟨access, id, name, hops.map g⟩)

/-- All findings of a place are references, with the same gaps. -/
theorem Padded.clean {g : Gaps} {found found' : List Finding}
    (h : List.Forall₂ (Padded g) found found') : Clean found' := by
  induction h with
  | nil => rfl
  | cons hfinding _ ih =>
    cases hfinding
    exact ih

end Finding

/-- The hop counts in two tables of a variable that stands where these gaps are. -/
def HopTable.Padded (table table' : HopTable) (g : Gaps) (id : NodeId) : Prop :=
  table'[id]? = table[id]?.map g

theorem Finding.Padded.recorded {g : Gaps} {table table' : HopTable} {found found' : List Finding}
    (h : List.Forall₂ (Padded g) found found') (hr : Recorded table found)
    (hr' : Recorded table' found') : ∀ id ∈ ids found, table.Padded table' g id := by
  induction h with
  | nil => exact fun id hid => absurd hid List.not_mem_nil
  | @cons finding finding' found found' hfinding _ ih =>
    cases hfinding with
    | @reference access i name hops =>
      intro id hid
      rcases List.mem_cons.mp hid with rfl | hid
      · have hfirst := hr _ List.mem_cons_self
        have hfirst' := hr' _ List.mem_cons_self
        rw [HopTable.Padded, hfirst, hfirst']
      · exact ih (fun r hmem => hr r (List.mem_cons_of_mem _ hmem))
          (fun r hmem => hr' r (List.mem_cons_of_mem _ hmem)) id hid

namespace Expr

variable {g : Gaps} {scopes scopes' : List Scope}

mutual

theorem findings_padded (hs : Scope.Padded g scopes scopes') (e : Expr)
    (hclean : Finding.Clean (e.findings scopes)) :
    List.Forall₂ (Finding.Padded g) (e.findings scopes) (e.findings scopes') := by
  match e with
  | literal _ => exact .nil
  | grouping inner => exact inner.findings_padded hs hclean
  | unary _ right => exact right.findings_padded hs hclean
  | binary left _ right | logical left _ right =>
    obtain ⟨hleft, hright⟩ := Finding.clean_append.mp hclean
    exact List.rel_append (left.findings_padded hs hleft) (right.findings_padded hs hright)
  | var id name =>
    have hnot : Scope.inInitializer scopes name.lexeme = false := by
      rw [Bool.eq_false_iff]
      intro hyes
      rw [findings, if_pos hyes] at hclean
      cases hclean
    simp only [findings, hnot, hs.inInitializer hnot, hs.hops?, Bool.false_eq_true, ↓reduceIte]
    exact .cons .reference .nil
  | assign id name value =>
    have hvalue := (Finding.clean_append.mp hclean).1
    refine List.rel_append (value.findings_padded hs hvalue) ?_
    rw [hs.hops?]
    exact .cons .reference .nil
  | call callee _ arguments =>
    obtain ⟨hcallee, harguments⟩ := Finding.clean_append.mp hclean
    exact List.rel_append (callee.findings_padded hs hcallee)
      (findingsOfAll_padded hs arguments harguments)

theorem findingsOfAll_padded (hs : Scope.Padded g scopes scopes') (es : List Expr)
    (hclean : Finding.Clean (findingsOfAll scopes es)) :
    List.Forall₂ (Finding.Padded g) (findingsOfAll scopes es) (findingsOfAll scopes' es) := by
  match es with
  | [] => exact .nil
  | e :: es =>
    obtain ⟨hfirst, hrest⟩ := Finding.clean_append.mp hclean
    exact List.rel_append (e.findings_padded hs hfirst) (findingsOfAll_padded hs es hrest)

end

end Expr

/-- What is known of a part of the program with further blocks, if the part of the other program
has no errors: it has none, and its hop counts are those that the gaps ask for. -/
structure Finding.Widened (table table' : HopTable) (found found' : List Finding) (p : Prop) :
    Prop where
  clean : Clean found'
  recorded : Recorded table found → Recorded table' found' → p

namespace Finding.Widened

variable {table table' : HopTable} {found₁ found₁' found₂ found₂' : List Finding} {p q : Prop}

theorem append (h : Widened table table' found₁ found₁' p)
    (h' : Widened table table' found₂ found₂' q) :
    Widened table table' (found₁ ++ found₂) (found₁' ++ found₂') (p ∧ q) :=
  ⟨clean_append.mpr ⟨h.clean, h'.clean⟩, fun hr hr' =>
    ⟨h.recorded hr.of_append.1 hr'.of_append.1, h'.recorded hr.of_append.2 hr'.of_append.2⟩⟩

theorem imp (h : Widened table table' found₁ found₁' p) (hpq : p → q) :
    Widened table table' found₁ found₁' q :=
  ⟨h.clean, fun hr hr' => hpq (h.recorded hr hr')⟩

end Finding.Widened

section Statements

variable {table table' : HopTable} {g : Gaps} {scopes scopes' : List Scope}

theorem Expr.findings_widened (hs : Scope.Padded g scopes scopes') (e : Expr)
    (hclean : Finding.Clean (e.findings scopes)) :
    Finding.Widened table table' (e.findings scopes) (e.findings scopes')
      (∀ id ∈ e.ids, table.Padded table' g id) := by
  have h := e.findings_padded hs hclean
  refine ⟨Finding.Padded.clean h, fun hr hr' => ?_⟩
  rw [← e.ids_findings scopes]
  exact Finding.Padded.recorded h hr hr'

theorem Stmt.findingsOfOption_widened (hs : Scope.Padded g scopes scopes') (e : Option Expr)
    (hclean : Finding.Clean (Stmt.findingsOfOption scopes e)) :
    Finding.Widened table table' (Stmt.findingsOfOption scopes e)
      (Stmt.findingsOfOption scopes' e) (∀ id ∈ Expr.idsOfOption e, table.Padded table' g id) := by
  cases e with
  | none => exact ⟨rfl, fun _ _ id hid => absurd hid List.not_mem_nil⟩
  | some e => exact e.findings_widened hs hclean

/-- What stands right inside of a further block leaves the scopes as they are. -/
theorem Stmt.Padded.scopes_findings {node : Gaps → NodeId → Prop} {g : Gaps} {s s' : Stmt}
    (h : Stmt.Padded node g s s') (hg : g 0 ≠ 0) (inFunction : Bool) (scopes : List Scope) :
    (s.findings inFunction scopes).1 = scopes := by
  match h with
  | .expression _ | .print _ | .block _ | .returnFrom _ => rfl
  | .declare h0 _ | .function h0 _ => exact absurd h0 hg
  | .wrapped h => exact h.scopes_findings (Nat.succ_ne_zero _) inFunction scopes
  | .ifThen _ h => exact h.scopes_findings hg inFunction scopes
  | .ifElse _ h h' =>
    simp only [Stmt.findings, h.scopes_findings hg, h'.scopes_findings hg]
  | .whileLoop _ h => exact h.scopes_findings hg inFunction scopes

mutual

/-- Whatever is known of the gaps where the variables stand, their hop counts are those that these
gaps ask for. -/
theorem Stmt.findings_widened {node : Gaps → NodeId → Prop} {g : Gaps}
    {scopes scopes' : List Scope} {s s' : Stmt} (h : Stmt.Padded node g s s')
    (hs : Scope.Padded g scopes scopes') (inFunction : Bool)
    (hclean : Finding.Clean (s.findings inFunction scopes).2) :
    Scope.Padded g (s.findings inFunction scopes).1 (s'.findings inFunction scopes').1 ∧
      Finding.Widened table table' (s.findings inFunction scopes).2
        (s'.findings inFunction scopes').2
        (Stmt.Padded (fun g i => node g i ∧ table.Padded table' g i) g s s') := by
  match h with
  | @Stmt.Padded.expression _ _ e he =>
    exact ⟨hs, (e.findings_widened hs hclean).imp
      fun h => .expression fun i hi => ⟨he i hi, h i hi⟩⟩
  | @Stmt.Padded.print _ _ e he =>
    exact ⟨hs, (e.findings_widened hs hclean).imp fun h => .print fun i hi => ⟨he i hi, h i hi⟩⟩
  | @Stmt.Padded.declare _ _ name e hg he =>
    have hnoted := hs.note hg name false
    exact ⟨hnoted.note hg name true, (Stmt.findingsOfOption_widened hnoted e hclean).imp
      fun h => .declare hg fun i hi => ⟨he i hi, h i hi⟩⟩
  | .block hbody =>
    have hinside := Stmt.findingsOfAll_widened hbody (.enter [] hs) inFunction hclean
    exact ⟨hs, hinside.2.imp .block⟩
  | @Stmt.Padded.wrapped _ _ s t ht =>
    -- The statement notes nothing where it stands, so the scope of the block stays empty.
    obtain ⟨-, hinside⟩ := Stmt.findings_widened ht (.under hs) inFunction hclean
    have hscopes := ht.scopes_findings (Nat.succ_ne_zero _) inFunction scopes
    have hblock : ((Stmt.block [t]).findings inFunction scopes').2 =
        (t.findings inFunction ([] :: scopes')).2 := by
      simp only [Stmt.findings, Stmt.findingsOfAll, List.append_nil]
    rw [hscopes, hblock]
    exact ⟨hs, hinside.imp .wrapped⟩
  | @Stmt.Padded.ifThen _ _ e t t' he ht =>
    obtain ⟨hcondition, hthen⟩ := Finding.clean_append.mp hclean
    obtain ⟨hscopes, hbranch⟩ := Stmt.findings_widened ht hs inFunction hthen
    exact ⟨hscopes, ((e.findings_widened hs hcondition).append hbranch).imp
      fun h => .ifThen (fun i hi => ⟨he i hi, h.1 i hi⟩) h.2⟩
  | @Stmt.Padded.ifElse _ _ e t t' u u' he ht hu =>
    obtain ⟨hfirst, helse⟩ := Finding.clean_append.mp hclean
    obtain ⟨hcondition, hthen⟩ := Finding.clean_append.mp hfirst
    obtain ⟨hscopes, hbranch⟩ := Stmt.findings_widened ht hs inFunction hthen
    obtain ⟨hscopes', hbranch'⟩ := Stmt.findings_widened hu hscopes inFunction helse
    exact ⟨hscopes', (((e.findings_widened hs hcondition).append hbranch).append hbranch').imp
      fun h => .ifElse (fun i hi => ⟨he i hi, h.1.1 i hi⟩) h.1.2 h.2⟩
  | @Stmt.Padded.whileLoop _ _ e t t' he ht =>
    obtain ⟨hcondition, hbody⟩ := Finding.clean_append.mp hclean
    obtain ⟨hscopes, hround⟩ := Stmt.findings_widened ht hs inFunction hbody
    exact ⟨hscopes, ((e.findings_widened hs hcondition).append hround).imp
      fun h => .whileLoop (fun i hi => ⟨he i hi, h.1 i hi⟩) h.2⟩
  | @Stmt.Padded.function _ _ name params body body' hg hbody =>
    have hnoted := hs.note hg name true
    have hinside := Scope.Padded.noteAll (.enter [] hnoted) rfl params
    exact ⟨hnoted, (Stmt.findingsOfAll_widened hbody hinside true hclean).2.imp (.function hg)⟩
  | @Stmt.Padded.returnFrom _ _ keyword e he =>
    obtain ⟨hplace, hvalue⟩ := Finding.clean_append.mp hclean
    have hreturn : Finding.Widened table table'
        (if inFunction then [] else [.error (.scoping keyword .topLevelReturn)])
        (if inFunction then [] else [.error (.scoping keyword .topLevelReturn)]) True :=
      ⟨hplace, fun _ _ => trivial⟩
    exact ⟨hs, (hreturn.append (Stmt.findingsOfOption_widened hs e hvalue)).imp
      fun h => .returnFrom fun i hi => ⟨he i hi, h.2 i hi⟩⟩

theorem Stmt.findingsOfAll_widened {node : Gaps → NodeId → Prop} {g : Gaps}
    {scopes scopes' : List Scope} {ss ss' : List Stmt} (h : Stmt.AllPadded node g ss ss')
    (hs : Scope.Padded g scopes scopes') (inFunction : Bool)
    (hclean : Finding.Clean (Stmt.findingsOfAll inFunction scopes ss).2) :
    Scope.Padded g (Stmt.findingsOfAll inFunction scopes ss).1
        (Stmt.findingsOfAll inFunction scopes' ss').1 ∧
      Finding.Widened table table' (Stmt.findingsOfAll inFunction scopes ss).2
        (Stmt.findingsOfAll inFunction scopes' ss').2
        (Stmt.AllPadded (fun g i => node g i ∧ table.Padded table' g i) g ss ss') := by
  match h with
  | .nil => exact ⟨hs, rfl, fun _ _ => .nil⟩
  | .cons h h' =>
    obtain ⟨hfirst, hrest⟩ := Finding.clean_append.mp hclean
    obtain ⟨hscopes, hstatement⟩ := Stmt.findings_widened h hs inFunction hfirst
    obtain ⟨hscopes', hothers⟩ := Stmt.findingsOfAll_widened h' hscopes inFunction hrest
    exact ⟨hscopes', (hstatement.append hothers).imp fun h => .cons h.1 h.2⟩

end

/-- A program without errors has none with further blocks, and its hop counts have grown by the
blocks that they lead out of. -/
theorem resolve_widened {node : Gaps → NodeId → Prop} {program program' : List Stmt}
    (h : Stmt.AllPadded node id program program') (hnodup : (Stmt.idsOfAll program).Nodup)
    (hresolved : (resolve program).errors = []) :
    (resolve program').errors = [] ∧ Stmt.AllPadded
      (fun g i => node g i ∧ (resolve program).hops.Padded (resolve program').hops g i) id
        program program' := by
  have hwidened : Finding.Widened (resolve program).hops (resolve program').hops
      (Stmt.findingsOfAll false [] program).2 (Stmt.findingsOfAll false [] program').2 _ :=
    (Stmt.findingsOfAll_widened h .nil false hresolved).2
  have hnodup' : (Stmt.idsOfAll program').Nodup := by rwa [h.ids_eq]
  exact ⟨hwidened.clean, hwidened.recorded (fun _ hr => resolve_hops hnodup hr)
    fun _ hr => resolve_hops hnodup' hr⟩

end Statements

end TreeWalk
