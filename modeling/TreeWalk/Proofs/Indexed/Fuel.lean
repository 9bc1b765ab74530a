import TreeWalk.Proofs.Indexed.Statements

/-! Fuel only decides whether a run has a result. What comes out with little fuel comes out with
more fuel as well, so a descent has one result at most. -/

namespace TreeWalk

namespace Descent

variable {α β : Type} {tokens : List Token} {reader : Reader}

/-- Whatever comes out of the one descent comes out of the other. -/
def Refines (w w' : Descent α) : Prop :=
  ∀ tokens reader outcome, w tokens reader = some outcome → w' tokens reader = some outcome

theorem bind_of_none {w : Descent α} {f : α → Descent β} (h : w tokens reader = none) :
    (w >>= f) tokens reader = none := by
  change (w tokens reader).bind _ = none
  rw [h]
  rfl

namespace Refines

variable {w w' v v' : Descent α} {f f' : α → Descent β}

theorem refl (w : Descent α) : Refines w w :=
  fun _ _ _ h => h

theorem spent : Refines spent w :=
  fun _ _ _ h => by cases h

theorem bind (hw : Refines w w') (hf : ∀ a, Refines (f a) (f' a)) :
    Refines (w >>= f) (w' >>= f') := by
  intro tokens reader outcome h
  cases hrun : w tokens reader with
  | none =>
    rw [bind_of_none hrun] at h
    cases h
  | some first =>
    have hrun' := hw tokens reader first hrun
    obtain ⟨result, reader'⟩ := first
    cases result with
    | ok a =>
      rw [bind_of_ok hrun] at h
      rw [bind_of_ok hrun']
      exact hf a tokens reader' outcome h
    | error d =>
      rw [bind_of_error hrun] at h
      rwa [bind_of_error hrun']

/-- The first step has nothing to do with fuel. -/
theorem step (hf : ∀ a, Refines (f a) (f' a)) : Refines (w >>= f) (w >>= f') :=
  (refl w).bind hf

theorem first (hw : Refines w w') : Refines (w >>= f) (w' >>= f) :=
  hw.bind fun a => refl (f a)

theorem ite {c : Prop} [Decidable c] (hw : Refines w w') (hv : Refines v v') :
    Refines (if c then w else v) (if c then w' else v') := by
  split
  · exact hw
  · exact hv

theorem map {g : α → β} (hw : Refines w w') : Refines (g <$> w) (g <$> w') := by
  rw [map_eq_pure_bind, map_eq_pure_bind]
  exact hw.first

end Refines

variable {fuel fuel' : Nat}

section Expressions

variable {item item' operand operand' expression expression' : Descent Expr}

theorem itemsFrom_refines {item item' : Descent α} {tooMany : SyntacticCause}
    (hitem : Refines item item') (hle : fuel ≤ fuel') (as : List α) :
    Refines (itemsFrom tooMany item fuel as) (itemsFrom tooMany item' fuel' as) := by
  induction fuel generalizing fuel' as with
  | zero => exact .spent
  | succ fuel ih =>
    cases fuel' with
    | zero => cases hle
    | succ fuel' =>
      have hround : Refines (item >>= fun a => takes [.punctuator .comma] >>= fun yes =>
          if yes = true then itemsFrom tooMany item fuel (as ++ [a]) else pure (as ++ [a]))
          (item' >>= fun a => takes [.punctuator .comma] >>= fun yes =>
            if yes = true then itemsFrom tooMany item' fuel' (as ++ [a]) else pure (as ++ [a])) :=
        hitem.bind fun a => .step fun yes => .ite (ih (Nat.le_of_succ_le_succ hle) _) (.refl _)
      exact .ite (.step fun _ => hround) hround

theorem items_refines {item item' : Descent α} {tooMany : SyntacticCause}
    (hitem : Refines item item') (hle : fuel ≤ fuel') :
    Refines (items tooMany item fuel) (items tooMany item' fuel') :=
  .step fun _ => .ite (.refl _) (itemsFrom_refines hitem hle [])

theorem joinedFrom_refines (j : Joint) (ho : Refines operand operand') (hle : fuel ≤ fuel')
    (left : Expr) :
    Refines (joinedFrom j operand fuel left) (joinedFrom j operand' fuel' left) := by
  induction fuel generalizing fuel' left with
  | zero => exact .spent
  | succ fuel ih =>
    cases fuel' with
    | zero => cases hle
    | succ fuel' =>
      refine .step fun _ => .ite (.step fun operator => ho.bind fun right => ?_) (.refl _)
      exact ih (Nat.le_of_succ_le_succ hle) _

/-- By induction on the levels of operators. -/
theorem joints_refines (js : List Joint) (ho : Refines operand operand') (hle : fuel ≤ fuel') :
    Refines (js.foldr (joined fuel) operand) (js.foldr (joined fuel') operand') := by
  induction js with
  | nil => exact ho
  | cons j js ih => exact ih.bind fun left => joinedFrom_refines j ih hle left

theorem primary_refines (he : Refines expression expression') :
    Refines (primary expression) (primary expression') := by
  refine .step fun _ => .ite (.refl _) (.step fun _ => .ite (.refl _) ?_)
  refine .step fun _ => .ite (.refl _) (.step fun t => ?_)
  split
  · exact .refl _
  · refine .step fun _ => .ite (.refl _) (.step fun _ => .ite he.first (.refl _))

theorem callsFrom_refines (he : Refines expression expression') (hle : fuel ≤ fuel')
    (callee : Expr) : Refines (callsFrom expression fuel callee)
      (callsFrom expression' fuel' callee) := by
  induction fuel generalizing fuel' callee with
  | zero => exact .spent
  | succ fuel ih =>
    cases fuel' with
    | zero => cases hle
    | succ fuel' =>
      have hless := Nat.le_of_succ_le_succ hle
      have harguments : Refines (arguments expression fuel) (arguments expression' fuel') :=
        (items_refines he hless).first
      exact .step fun _ => .ite (harguments.bind fun _ => ih hless _) (.refl _)

theorem unary_refines (hcall : Refines operand operand') (hle : fuel ≤ fuel') :
    Refines (unary operand fuel) (unary operand' fuel') := by
  induction fuel generalizing fuel' with
  | zero => exact .spent
  | succ fuel ih =>
    cases fuel' with
    | zero => cases hle
    | succ fuel' =>
      exact .step fun _ => .ite (.step fun _ => (ih (Nat.le_of_succ_le_succ hle)).first) hcall

theorem assignment_refines (he : Refines expression expression') (hle : fuel ≤ fuel') :
    Refines (assignment expression fuel) (assignment expression' fuel') := by
  have hcall : Refines (call expression fuel) (call expression' fuel') :=
    (primary_refines he).bind fun callee => callsFrom_refines he hle callee
  refine (joints_refines joints (unary_refines hcall hle) hle).bind fun target => ?_
  exact .step fun _ => .ite (.step fun _ => he.first) (.refl _)

theorem expression_refines (hle : fuel ≤ fuel') :
    Refines (Descent.expression fuel) (Descent.expression fuel') := by
  induction fuel generalizing fuel' with
  | zero => exact .spent
  | succ fuel ih =>
    cases fuel' with
    | zero => cases hle
    | succ fuel' =>
      have hless := Nat.le_of_succ_le_succ hle
      exact assignment_refines (ih hless) hless

theorem soleExpression_refines (hle : fuel ≤ fuel') :
    Refines (soleExpression fuel) (soleExpression fuel') :=
  (expression_refines hle).first

end Expressions

section Statements

variable {statement statement' : Descent Stmt} {block block' : Descent (List Stmt)}
  {declaration declaration' : Descent (Option Stmt)}

theorem optionalExpression_refines (hle : fuel ≤ fuel') (closing : Kind) :
    Refines (optionalExpression fuel closing) (optionalExpression fuel' closing) :=
  .step fun _ => .ite (.refl _) (expression_refines hle).first

theorem variableDeclaration_refines (hle : fuel ≤ fuel') :
    Refines (variableDeclaration fuel) (variableDeclaration fuel') :=
  .step fun _ => .step fun _ => .ite (expression_refines hle).map.first (.refl _)

theorem expressionStatement_refines (hle : fuel ≤ fuel') :
    Refines (expressionStatement fuel) (expressionStatement fuel') :=
  (expression_refines hle).first

theorem whileStatement_refines (hle : fuel ≤ fuel') (hs : Refines statement statement') :
    Refines (whileStatement fuel statement) (whileStatement fuel' statement') :=
  .step fun _ => (expression_refines hle).bind fun _ => .step fun _ => hs.first

theorem ifStatement_refines (hle : fuel ≤ fuel') (hs : Refines statement statement') :
    Refines (ifStatement fuel statement) (ifStatement fuel' statement') := by
  refine .step fun _ => (expression_refines hle).bind fun _ => .step fun _ => ?_
  exact hs.bind fun _ => .step fun _ => .ite hs.first (.refl _)

theorem forInitializer_refines (hle : fuel ≤ fuel') :
    Refines (forInitializer fuel) (forInitializer fuel') := by
  refine .step fun _ => .ite (.refl _) (.step fun _ => .ite ?_ ?_)
  · exact (variableDeclaration_refines hle).first
  · exact (expressionStatement_refines hle).first

theorem forStatement_refines (hle : fuel ≤ fuel') (hs : Refines statement statement') :
    Refines (forStatement fuel statement) (forStatement fuel' statement') := by
  refine .step fun _ => (forInitializer_refines hle).bind fun _ => ?_
  refine (optionalExpression_refines hle _).bind fun _ => .step fun _ => ?_
  exact (optionalExpression_refines hle _).bind fun _ => .step fun _ => hs.first

theorem statementWith_refines (hle : fuel ≤ fuel') (hs : Refines statement statement')
    (hb : Refines block block') :
    Refines (statementWith fuel statement block) (statementWith fuel' statement' block') := by
  refine .step fun _ => .ite (forStatement_refines hle hs) ?_
  refine .step fun _ => .ite (ifStatement_refines hle hs) ?_
  refine .step fun _ => .ite (expression_refines hle).first ?_
  refine .step fun _ => .ite (.step fun _ => (optionalExpression_refines hle _).first) ?_
  refine .step fun _ => .ite (whileStatement_refines hle hs) ?_
  exact .step fun _ => .ite hb.first (expressionStatement_refines hle)

theorem functionDeclaration_refines (hle : fuel ≤ fuel') (hb : Refines block block') :
    Refines (functionDeclaration fuel block) (functionDeclaration fuel' block') := by
  have hparameters : Refines (parameters fuel) (parameters fuel') :=
    (items_refines (.refl _) hle).first
  refine .step fun _ => .step fun _ => hparameters.bind fun _ => .step fun _ => ?_
  exact hb.first

theorem declarationWith_refines (hle : fuel ≤ fuel') (hs : Refines statement statement')
    (hb : Refines block block') :
    Refines (declarationWith fuel statement block) (declarationWith fuel' statement' block') := by
  refine .step fun _ => .ite (functionDeclaration_refines hle hb) ?_
  exact .step fun _ => .ite (variableDeclaration_refines hle) (statementWith_refines hle hs hb)

theorem synchronizeFrom_refines (hle : fuel ≤ fuel') :
    Refines (synchronizeFrom fuel) (synchronizeFrom fuel') := by
  induction fuel generalizing fuel' with
  | zero => exact .spent
  | succ fuel ih =>
    cases fuel' with
    | zero => cases hle
    | succ fuel' =>
      refine .step fun _ => .ite (.refl _) (.step fun _ => .ite (.refl _) ?_)
      exact .step fun _ => .ite (.refl _) (.step fun _ => ih (Nat.le_of_succ_le_succ hle))

theorem recovering_refines {rule rule' : Descent Stmt} (hle : fuel ≤ fuel')
    (hrule : Refines rule rule') : Refines (recovering fuel rule) (recovering fuel' rule') := by
  intro tokens reader outcome h
  cases hrun : rule tokens reader with
  | none =>
    have hnone : (some <$> rule) tokens reader = none := by
      rw [map_eq_pure_bind, bind_of_none hrun]
    rw [recovering_apply, hnone] at h
    cases h
  | some first =>
    have hrun' := hrule tokens reader first hrun
    obtain ⟨result, reader'⟩ := first
    cases result with
    | ok stmt =>
      rw [recovering_of_ok hrun] at h
      rwa [recovering_of_ok hrun']
    | error d =>
      have hresume : Refines (synchronize fuel) (synchronize fuel') :=
        .step fun _ => synchronizeFrom_refines hle
      rw [recovering_of_error hrun] at h
      rw [recovering_of_error hrun']
      exact Refines.step (fun _ => hresume.first) tokens reader' outcome h

theorem declarationsUntil_refines (closing : List Kind) (hd : Refines declaration declaration')
    (hle : fuel ≤ fuel') (statements : List Stmt) :
    Refines (declarationsUntil closing declaration fuel statements)
      (declarationsUntil closing declaration' fuel' statements) := by
  induction fuel generalizing fuel' statements with
  | zero => exact .spent
  | succ fuel ih =>
    cases fuel' with
    | zero => cases hle
    | succ fuel' =>
      refine .step fun _ => .ite (.refl _) (hd.bind fun _ => ?_)
      exact ih (Nat.le_of_succ_le_succ hle) _

theorem nested_refines (hle : fuel ≤ fuel') :
    Refines (Descent.statement fuel) (Descent.statement fuel') ∧
      Refines (Descent.declaration fuel) (Descent.declaration fuel') := by
  induction fuel generalizing fuel' with
  | zero => exact ⟨.spent, .spent⟩
  | succ fuel ih =>
    cases fuel' with
    | zero => cases hle
    | succ fuel' =>
      have hless := Nat.le_of_succ_le_succ hle
      obtain ⟨hs, hd⟩ := ih hless
      have hb : Refines (blockOf fuel (Descent.declaration fuel))
          (blockOf fuel' (Descent.declaration fuel')) :=
        (declarationsUntil_refines _ hd hless []).first
      exact ⟨statementWith_refines hless hs hb,
        recovering_refines hless (declarationWith_refines hless hs hb)⟩

theorem program_refines (hle : fuel ≤ fuel') : Refines (program fuel) (program fuel') :=
  declarationsUntil_refines [] (nested_refines hle).2 hle []

end Statements

end Descent

end TreeWalk
