import Mathlib.Data.List.Nodup
import TreeWalk.Proofs.Grammar.Trees

/-! Identities in whatever a parser returns. Some are drawn for nodes that are left out again, and
some before a report; all those that are left in what comes back differ from one another. -/

namespace TreeWalk

namespace Grammar.Drawn

variable {n n₁ n' : Nat} {ids ids' : List NodeId}

/-- Identities may be left out, and stand in another order. -/
theorem of_count_le (h : Drawn n ids n') (hcount : ∀ i, ids'.count i ≤ ids.count i) :
    Drawn n ids' n' := by
  refine ⟨h.le, List.nodup_iff_count_le_one.mpr fun i => ?_, fun i hi => h.within i ?_⟩
  · exact Nat.le_trans (hcount i) (List.nodup_iff_count_le_one.mp h.nodup i)
  · exact List.count_pos_iff.mp (Nat.lt_of_lt_of_le (List.count_pos_iff.mpr hi) (hcount i))

/-- More may have been drawn meanwhile. -/
theorem later (h : Drawn n ids n₁) (hle : n₁ ≤ n') : Drawn n ids n' :=
  ⟨Nat.le_trans h.le hle, h.nodup, fun i hi =>
    ⟨(h.within i hi).1, Nat.lt_of_lt_of_le (h.within i hi).2 hle⟩⟩

end Grammar.Drawn

open Grammar

namespace Rule

variable {α β : Type} {c c' : List NodeId}

/-- If `c` are identities drawn before a rule succeeds, then those that its result has, among them
perhaps some of `c`, have been drawn after it. -/
def Numbers (c : List NodeId) (r : Rule α) (ids : α → List NodeId) : Prop :=
  ∀ n s a s', Drawn n c s.nextId → r s = (.ok a, s') → Drawn n (ids a) s'.nextId

/-- A rule adds the identities of its result to those drawn before. -/
def Draws (r : Rule α) (ids : α → List NodeId) : Prop :=
  ∀ c, Numbers c r fun a => c ++ ids a

/-- A rule that draws no identity. -/
class Quiet (r : Rule α) : Prop where
  nextId : ∀ s, (r s).2.nextId = s.nextId

section Quiet

instance (a : α) : Quiet (pure a : Rule α) :=
  ⟨fun _ => rfl⟩

instance (cause : SyntacticCause) : Quiet (fail cause : Rule α) :=
  ⟨fun _ => rfl⟩

instance : Quiet (get : Rule Cursor) :=
  ⟨fun _ => rfl⟩

instance : Quiet skip :=
  ⟨fun _ => rfl⟩

instance (d : Diagnostic) : Quiet (modify (·.report d) : Rule Unit) :=
  ⟨fun _ => rfl⟩

instance (cause : SyntacticCause) : Quiet (complain cause) :=
  ⟨fun _ => rfl⟩

instance (p : Token → Bool) : Quiet (sees p) :=
  ⟨fun _ => rfl⟩

instance (p : Token → Bool) : Quiet (acceptWhile p) :=
  ⟨fun _ => rfl⟩

instance (p : Token → Bool) : Quiet (accept? p) := by
  refine ⟨fun s => ?_⟩
  rw [accept?_apply]
  split
  · split <;> rfl
  · rfl

theorem Quiet.bind {r : Rule α} {f : α → Rule β} (hr : Quiet r) (hf : ∀ a, Quiet (f a)) :
    Quiet (r >>= f) := by
  refine ⟨fun s => ?_⟩
  have h := hr.nextId s
  rw [bind_apply]
  cases hs : r s with
  | mk result s₁ =>
    rw [hs] at h
    cases result with
    | ok a => exact ((hf a).nextId s₁).trans h
    | error d => exact h

instance (r : Rule α) (f : α → Rule β) [hr : Quiet r] [hf : ∀ a, Quiet (f a)] :
    Quiet (r >>= f) :=
  hr.bind hf

instance (p : Token → Bool) : Quiet (accepts p) := by
  unfold accepts
  infer_instance

instance (p : Token → Bool) (what : Expectation) : Quiet (expect p what) := by
  unfold expect
  refine Quiet.bind inferInstance fun result => ?_
  cases result <;> infer_instance

instance (r : Rule α) [hr : Quiet r] : Quiet (discard r) := by
  have hmap : Quiet ((fun _ => PUnit.unit) <$> r) := by
    rw [map_eq_pure_bind]
    infer_instance
  exact hmap

end Quiet

namespace Numbers

variable {ids : α → List NodeId} {ids' : β → List NodeId} {r : Rule α} {f : α → Rule β}

theorem bind (hr : Numbers c r ids) (hf : ∀ a, Numbers (ids a) (f a) ids') :
    Numbers c (r >>= f) ids' := by
  intro n s b s' hc hs
  rw [bind_apply] at hs
  cases hrs : r s with
  | mk result s₁ =>
    rw [hrs] at hs
    cases result with
    | ok a => exact hf a n s₁ b s' (hr n s a s₁ hc hrs) hs
    | error d => cases hs

theorem of_quiet [hr : Quiet r] : Numbers c r fun _ => c := by
  intro n s a s' hc hs
  have h := hr.nextId s
  rw [hs] at h
  rwa [h]

/-- A step that draws nothing before the others. -/
theorem quietly [Quiet r] (hf : ∀ a, Numbers c (f a) ids') : Numbers c (r >>= f) ids' :=
  of_quiet.bind hf

theorem pure {a : α} (h : ∀ i, (ids a).count i ≤ c.count i) : Numbers c (pure a) ids := by
  intro n s a' s' hc hs
  cases hs
  exact hc.of_count_le h

theorem weaken {ids₁ : α → List NodeId} (hr : Numbers c r ids)
    (h : ∀ a i, (ids₁ a).count i ≤ (ids a).count i) : Numbers c r ids₁ :=
  fun n s a s' hc hs => (hr n s a s' hc hs).of_count_le (h a)

theorem fail {cause : SyntacticCause} : Numbers c (fail cause) ids := by
  intro n s a s' _ hs
  cases hs

theorem freshId : Numbers c freshId fun id => c ++ [id] := by
  intro n s id s' hc hs
  cases hs
  exact hc.append .single

theorem ite {p : Prop} [Decidable p] {r' : Rule α} (hr : Numbers c r ids)
    (hr' : Numbers c r' ids) : Numbers c (if p then r else r') ids := by
  split
  · exact hr
  · exact hr'

/-- A rule that chooses another rule by the cursor. -/
theorem of_apply (h : ∀ s, ∃ r', r s = r' s ∧ Numbers c r' ids) : Numbers c r ids := by
  intro n s a s' hc hs
  obtain ⟨r', hr, hnumbers⟩ := h s
  exact hnumbers n s a s' hc (hr ▸ hs)

end Numbers

section Expressions

theorem moreItems_draws {tooMany : SyntacticCause} {item : Rule α} {ids : α → List NodeId}
    (hitem : Draws item ids) (bound : Nat) (items : List α) (c : List NodeId) :
    Numbers (c ++ items.flatMap ids) (moreItems tooMany item bound items)
      fun all => c ++ all.flatMap ids := by
  induction bound generalizing items with
  | zero => exact .pure fun _ => Nat.le_refl _
  | succ bound ih =>
    have hnext : Numbers (c ++ items.flatMap ids)
        (item >>= fun a => moreItems tooMany item bound (items ++ [a]))
        fun all => c ++ all.flatMap ids := by
      refine (hitem _).bind fun a => ?_
      have hmore := ih (items ++ [a])
      simpa using hmore
    rw [moreItems]
    refine .quietly fun yes => .ite ?_ (.pure fun _ => Nat.le_refl _)
    exact .ite (.quietly fun _ => hnext) hnext

theorem commaSeparated_draws {tooMany : SyntacticCause} {item : Rule α} {ids : α → List NodeId}
    (hitem : Draws item ids) : Draws (commaSeparated tooMany item) (List.flatMap ids) := by
  intro c
  refine (hitem c).bind fun first => .quietly fun s => ?_
  have hmore : Numbers (c ++ [first].flatMap ids) (moreItems tooMany item s.rest.length [first])
      fun items => c ++ items.flatMap ids := moreItems_draws hitem s.rest.length [first] c
  simpa using hmore

theorem idsOfAll_eq_flatMap (es : List Expr) : Expr.idsOfAll es = es.flatMap Expr.ids := by
  induction es with
  | nil => rfl
  | cons e es ih => rw [Expr.idsOfAll, ih, List.flatMap_cons]

variable {build : Expr → Token → Expr → Expr} {isOperator : Token → Bool} {operand : Rule Expr}

theorem leftAssocFrom_draws (ho : Draws operand Expr.ids)
    (hbuild : ∀ e t e', (build e t e').ids = e.ids ++ e'.ids) (bound : Nat) (left : Expr)
    (c : List NodeId) :
    Numbers (c ++ left.ids) (leftAssocFrom build isOperator operand bound left)
      fun e => c ++ e.ids := by
  induction bound generalizing left with
  | zero => exact .pure fun _ => Nat.le_refl _
  | succ bound ih =>
    rw [leftAssocFrom]
    refine .quietly fun o => ?_
    cases o with
    | none => exact .pure fun _ => Nat.le_refl _
    | some operator =>
      refine (ho _).bind fun right => ?_
      have hfrom := ih (build left operator right)
      rwa [hbuild, ← List.append_assoc] at hfrom

theorem leftAssoc_draws (ho : Draws operand Expr.ids)
    (hbuild : ∀ e t e', (build e t e').ids = e.ids ++ e'.ids) :
    Draws (leftAssoc build isOperator operand) Expr.ids := by
  intro c
  refine (ho c).bind fun left => .quietly fun s => ?_
  exact leftAssocFrom_draws ho hbuild _ left c

variable {expression : Rule Expr}

theorem primary_draws (he : Draws expression Expr.ids) :
    Draws (primary expression) Expr.ids := by
  intro c
  unfold primary
  refine .quietly fun s => ?_
  dsimp only
  cases s.head.constant? with
  | some value => exact .quietly fun _ => .pure fun _ => by simp [Expr.ids]
  | none =>
    refine .ite (.quietly fun _ => Numbers.freshId.bind fun id => ?_) ?_
    · exact .pure fun _ => Nat.le_refl _
    · refine .ite (.quietly fun _ => (he c).bind fun inner => ?_) .fail
      exact .quietly fun _ => .pure fun _ => Nat.le_refl _

theorem arguments_draws (he : Draws expression Expr.ids) :
    Draws (arguments expression) fun argumentsAndParen => Expr.idsOfAll argumentsAndParen.1 := by
  intro c
  unfold arguments
  have hclose (args : List Expr) : Numbers (c ++ args.flatMap Expr.ids)
      (expect (·.isPunctuator .rightParen) .parenAfterArguments >>= fun t => pure (args, t))
      fun argumentsAndParen => c ++ Expr.idsOfAll argumentsAndParen.1 := by
    refine .quietly fun t => .pure fun _ => ?_
    exact Nat.le_of_eq (by rw [idsOfAll_eq_flatMap])
  have hnone : Numbers c (pure []) fun args => c ++ args.flatMap Expr.ids :=
    .pure fun _ => by simp
  refine .quietly fun yes => .ite ?_ ?_
  · exact hnone.bind hclose
  · exact (commaSeparated_draws he c).bind hclose

theorem callsFrom_draws (he : Draws expression Expr.ids) (bound : Nat) (callee : Expr)
    (c : List NodeId) :
    Numbers (c ++ callee.ids) (callsFrom expression bound callee) fun e => c ++ e.ids := by
  induction bound generalizing callee with
  | zero => exact .pure fun _ => Nat.le_refl _
  | succ bound ih =>
    rw [callsFrom]
    refine .quietly fun yes => .ite ?_ (.pure fun _ => Nat.le_refl _)
    refine (arguments_draws he _).bind fun argumentsAndParen => ?_
    obtain ⟨args, paren⟩ := argumentsAndParen
    have hcalls := ih (.call callee paren args)
    rwa [Expr.ids, ← List.append_assoc] at hcalls

theorem call_draws (he : Draws expression Expr.ids) : Draws (call expression) Expr.ids := by
  intro c
  refine (primary_draws he c).bind fun callee => .quietly fun s => ?_
  exact callsFrom_draws he _ callee c

theorem unary_draws (he : Draws expression Expr.ids) : Draws (unary expression) Expr.ids := by
  intro c
  have hsigns (operators : List Token) (operand : Expr) :
      (operators.foldr .unary operand).ids = operand.ids := by
    induction operators with
    | nil => rfl
    | cons operator operators ih => exact ih
  refine .quietly fun operators => (call_draws he c).bind fun operand => .pure fun _ => ?_
  exact Nat.le_of_eq (by rw [hsigns])

theorem disjunction_draws (he : Draws expression Expr.ids) :
    Draws (disjunction expression) Expr.ids := by
  have hfactor : Draws (factor expression) Expr.ids :=
    leftAssoc_draws (unary_draws he) fun _ _ _ => rfl
  have hterm : Draws (term expression) Expr.ids := leftAssoc_draws hfactor fun _ _ _ => rfl
  have hcomparison : Draws (comparison expression) Expr.ids :=
    leftAssoc_draws hterm fun _ _ _ => rfl
  have hequality : Draws (equality expression) Expr.ids :=
    leftAssoc_draws hcomparison fun _ _ _ => rfl
  have hconjunction : Draws (conjunction expression) Expr.ids :=
    leftAssoc_draws hequality fun _ _ _ => rfl
  exact leftAssoc_draws hconjunction fun _ _ _ => rfl

/-- The node of a target is made anew as an assignment, under another identity; the value of a
target that cannot be assigned to is left out. -/
theorem assignTo_draws (he : Draws expression Expr.ids) (target : Expr) (equals : Token)
    (c : List NodeId) :
    Numbers (c ++ target.ids) (assignTo expression target equals) fun e => c ++ e.ids := by
  unfold assignTo
  refine (he _).bind fun value => ?_
  have hdropped : Numbers (c ++ target.ids ++ value.ids)
      (do
        modify (·.report (.syntactic equals .invalidAssignmentTarget))
        return target) fun e => c ++ e.ids :=
    .quietly fun _ => .pure fun _ => by simp
  cases target with
  | var id name =>
    refine Numbers.freshId.bind fun id' => .pure fun i => ?_
    simp only [Expr.ids, List.count_append]
    omega
  | _ => exact hdropped

theorem assignment_draws (he : Draws expression Expr.ids) :
    Draws (assignment expression) Expr.ids := by
  intro c
  refine (disjunction_draws he c).bind fun target => .quietly fun o => ?_
  cases o with
  | none => exact .pure fun _ => Nat.le_refl _
  | some equals => exact assignTo_draws he target equals c

theorem expressionUpTo_draws (depth : Nat) : Draws (expressionUpTo depth) Expr.ids := by
  induction depth with
  | zero => exact fun c => Numbers.fail
  | succ depth ih => exact assignment_draws ih

theorem expression_draws : Draws Rule.expression Expr.ids :=
  fun c => .of_apply fun s =>
    ⟨expressionUpTo (s.rest.length + 1), rfl, expressionUpTo_draws _ c⟩

instance soleExpression_grows : Grows soleExpression := by
  unfold soleExpression
  refine Grows.bind inferInstance fun e => Grows.bind inferInstance fun s => ?_
  have hend : Grows (match s.reports with
      | d :: _ => throw d
      | [] => return e : Rule Expr) := by
    cases s.reports with
    | nil => infer_instance
    | cons d ds => exact ⟨fun _ => List.prefix_rfl, fun _ => rfl, fun _ => Nat.le_refl _⟩
  dsimp only
  split
  · exact Grows.bind inferInstance fun _ => hend
  · exact hend

/-- A single expression is all that is left of what was drawn for it. -/
theorem soleExpression_draws : Draws soleExpression Expr.ids := by
  intro c
  unfold soleExpression
  refine (expression_draws c).bind fun e => .quietly fun s => ?_
  have hend : Numbers (c ++ e.ids) (match s.reports with
      | d :: _ => throw d
      | [] => return e) fun e => c ++ e.ids := by
    cases s.reports with
    | nil => exact .pure fun _ => Nat.le_refl _
    | cons d ds =>
      intro n s a s' _ hs
      cases hs
  dsimp only
  split
  · exact Numbers.fail.bind fun _ => hend
  · exact hend

end Expressions

section Statements

theorem expressionStatement_draws : Draws expressionStatement Stmt.ids := by
  intro c
  refine (expression_draws c).bind fun e => .quietly fun _ => ?_
  exact .pure fun _ => Nat.le_refl _

theorem printStatement_draws : Draws printStatement Stmt.ids := by
  intro c
  refine (expression_draws c).bind fun e => .quietly fun _ => ?_
  exact .pure fun _ => Nat.le_refl _

theorem optionalExpression_draws (closing : Punctuator) :
    Draws (optionalExpression closing) Expr.idsOfOption := by
  intro c
  refine .quietly fun yes => .ite (.pure fun _ => by simp [Expr.idsOfOption]) ?_
  exact (expression_draws c).bind fun e => .pure fun _ => Nat.le_refl _

theorem returnStatement_draws (keyword : Token) : Draws (returnStatement keyword) Stmt.ids := by
  intro c
  refine (optionalExpression_draws _ c).bind fun value => .quietly fun _ => ?_
  exact .pure fun _ => Nat.le_refl _

theorem variableDeclaration_draws : Draws variableDeclaration Stmt.ids := by
  intro c
  unfold variableDeclaration
  have hclose (name : Token) (initializer : Option Expr) :
      Numbers (c ++ Expr.idsOfOption initializer)
        (discard (expect (·.isPunctuator .semicolon) .semicolonAfterDeclaration) >>= fun _ =>
          pure (Stmt.declare name initializer)) fun s => c ++ s.ids :=
    .quietly fun _ => .pure fun _ => Nat.le_refl _
  refine .quietly fun name => .quietly fun yes => .ite ?_ ?_
  · rw [map_eq_pure_bind]
    refine Numbers.bind ((expression_draws c).bind fun e => ?_) (hclose name)
    exact .pure fun _ => Nat.le_refl _
  · refine Numbers.bind (.pure fun _ => ?_) (hclose name)
    simp [Expr.idsOfOption]

variable {statement : Rule Stmt} {block : Rule (List Stmt)}

theorem whileStatement_draws (hs : Draws statement Stmt.ids) :
    Draws (whileStatement statement) Stmt.ids := by
  intro c
  refine .quietly fun _ => (expression_draws c).bind fun condition => .quietly fun _ => ?_
  refine (hs _).bind fun body => .pure fun _ => ?_
  simp only [Stmt.ids, List.append_assoc, Nat.le_refl]

theorem ifStatement_draws (hs : Draws statement Stmt.ids) :
    Draws (ifStatement statement) Stmt.ids := by
  intro c
  refine .quietly fun _ => (expression_draws c).bind fun condition => .quietly fun _ => ?_
  refine (hs _).bind fun thenBranch => .quietly fun yes => .ite ?_ ?_
  · refine (hs _).bind fun elseBranch => .pure fun _ => ?_
    simp only [Stmt.ids, List.append_assoc, Nat.le_refl]
  · refine .pure fun _ => ?_
    simp only [Stmt.ids, List.append_assoc, Nat.le_refl]

theorem forInitializer_draws : Draws forInitializer Stmt.idsOfOption := by
  intro c
  refine .quietly fun yes => .ite (.pure fun _ => by simp [Stmt.idsOfOption]) ?_
  refine .quietly fun yes => .ite ?_ ?_
  · exact (variableDeclaration_draws c).bind fun s => .pure fun _ => Nat.le_refl _
  · exact (expressionStatement_draws c).bind fun s => .pure fun _ => Nat.le_refl _

theorem forStatement_draws (hs : Draws statement Stmt.ids) :
    Draws (forStatement statement) Stmt.ids := by
  intro c
  refine .quietly fun _ => (forInitializer_draws c).bind fun initializer => ?_
  refine (optionalExpression_draws _ _).bind fun condition => .quietly fun _ => ?_
  refine (optionalExpression_draws _ _).bind fun increment => .quietly fun _ => ?_
  refine (hs _).bind fun body => .pure fun i => ?_
  have hloop := (Stmt.ids_forLoop initializer condition increment body).count_eq i
  simp only [List.count_append] at hloop ⊢
  omega

theorem statementWith_draws (hs : Draws statement Stmt.ids) (hb : Draws block Stmt.idsOfAll) :
    Draws (statementWith statement block) Stmt.ids := by
  intro c
  unfold statementWith
  refine .quietly fun yes => .ite (forStatement_draws hs c) ?_
  refine .quietly fun yes => .ite (ifStatement_draws hs c) ?_
  refine .quietly fun yes => .ite (printStatement_draws c) ?_
  refine .quietly fun keyword => ?_
  cases keyword with
  | some keyword => exact returnStatement_draws keyword c
  | none =>
    refine .quietly fun yes => .ite (whileStatement_draws hs c) ?_
    refine .quietly fun yes => .ite ?_ (expressionStatement_draws c)
    exact (hb c).bind fun body => .pure fun _ => Nat.le_refl _

theorem parameters_draws (c : List NodeId) : Numbers c parameters fun _ => c := by
  have hnames : Draws (expect Token.isIdentifier .parameterName) fun _ => [] :=
    fun c => Numbers.of_quiet.weaken fun _ _ => by simp
  unfold parameters
  refine .quietly fun yes => .ite ?_ ?_
  · exact .quietly fun params => .quietly fun _ => .pure fun _ => Nat.le_refl _
  · refine (commaSeparated_draws hnames c).bind fun params => .quietly fun _ => ?_
    exact .pure fun _ => by simp

theorem functionDeclaration_draws (hb : Draws block Stmt.idsOfAll) :
    Draws (functionDeclaration block) Stmt.ids := by
  intro c
  refine .quietly fun name => .quietly fun _ => (parameters_draws c).bind fun params => ?_
  exact .quietly fun _ => (hb c).bind fun body => .pure fun _ => Nat.le_refl _

theorem declarationWith_draws (hs : Draws statement Stmt.ids) (hb : Draws block Stmt.idsOfAll) :
    Draws (declarationWith statement block) Stmt.ids := by
  intro c
  refine .quietly fun yes => .ite (functionDeclaration_draws hb c) ?_
  exact .quietly fun yes => .ite (variableDeclaration_draws c) (statementWith_draws hs hb c)

end Statements

section Declarations

/-- What a faulty statement has drawn is left out together with it. -/
theorem recovering_draws {rule : Rule Stmt} [hg : Grows rule] (hr : Draws rule Stmt.ids) :
    Draws (liftM (recovering rule)) Stmt.idsOfOption := by
  intro c n s o s' hc hs
  have hle := hg.nextId s
  obtain ⟨stmt, s₁, hrule, hrecovering⟩ | ⟨d, s₁, hrule, hrecovering⟩ := recovering_cases rule s
  · rw [liftM_apply, hrecovering] at hs
    cases hs
    exact hr c n s stmt s₁ hc hrule
  · rw [liftM_apply, hrecovering] at hs
    rw [hrule] at hle
    cases hs
    simpa [Stmt.idsOfOption, Cursor.report] using hc.later hle

theorem declarationsUntil_draws {closes : Token → Bool} {declaration : StateM Cursor (Option Stmt)}
    (hd : Draws (liftM declaration) Stmt.idsOfOption) (bound : Nat) :
    Draws (liftM (declarationsUntil closes declaration bound)) Stmt.idsOfAll := by
  induction bound with
  | zero => exact fun c => Numbers.pure (a := []) fun _ => by simp [Stmt.idsOfAll]
  | succ bound ih =>
    intro c n s body s' hc hs
    rw [liftM_apply, declarationsUntil_succ_apply] at hs
    split at hs
    · cases hs
      simpa [Stmt.idsOfAll] using hc
    · obtain ⟨first, s₁, hfirst⟩ : ∃ first s₁, declaration s = (first, s₁) := ⟨_, _, rfl⟩
      obtain ⟨others, s₂, hothers⟩ : ∃ others s₂,
          declarationsUntil closes declaration bound s₁ = (others, s₂) := ⟨_, _, rfl⟩
      have hdrawn := hd c n s first s₁ hc (by rw [liftM_apply, hfirst])
      have hall := ih _ n s₁ others s₂ hdrawn (by rw [liftM_apply, hothers])
      rw [hfirst] at hs
      dsimp only at hs
      rw [hothers] at hs
      cases hs
      cases first with
      | none => simpa [Stmt.idsOfOption] using hall
      | some stmt => simpa [Stmt.idsOfOption, Stmt.idsOfAll] using hall

theorem blockOf_draws {declaration : StateM Cursor (Option Stmt)}
    (hd : Draws (liftM declaration) Stmt.idsOfOption) :
    Draws (blockOf declaration) Stmt.idsOfAll := by
  intro c
  refine .quietly fun s => (declarationsUntil_draws hd _ c).bind fun body => ?_
  exact .quietly fun _ => .pure fun _ => Nat.le_refl _

/-- By induction on the depth of nesting. -/
theorem nested_draws (depth : Nat) : Draws (statementUpTo depth) Stmt.ids ∧
    Draws (liftM (declarationUpTo depth)) Stmt.idsOfOption := by
  induction depth with
  | zero => exact ⟨fun c => Numbers.fail, recovering_draws fun c => Numbers.fail⟩
  | succ depth ih =>
    have hblock := blockOf_draws ih.2
    have hstatement := (upTo_sound depth).1.1
    have hdeclaration := (upTo_sound depth).2.1
    exact ⟨statementWith_draws ih.1 hblock, recovering_draws (declarationWith_draws ih.1 hblock)⟩

theorem program_draws : Draws (liftM program) Stmt.idsOfAll := by
  have hdeclaration : Draws (liftM declaration) Stmt.idsOfOption := fun c =>
    .of_apply fun s => ⟨_, declaration_apply s, (nested_draws (s.rest.length + 1)).2 c⟩
  exact fun c => .of_apply fun s =>
    ⟨liftM (declarationsUntil (fun _ => false) declaration s.rest.length), rfl,
      declarationsUntil_draws hdeclaration _ c⟩

end Declarations

end Rule

/-- The identities of all statements that are returned, whatever was reported on the others. -/
theorem parseProgram_drawn (tokens : List Token) (n : NodeId) :
    Drawn n (Stmt.idsOfAll (parseProgram tokens n).statements) (parseProgram tokens n).nextId :=
  Rule.program_draws [] n (Cursor.ofTokens tokens n) _ _ .nil (Rule.liftM_apply _ _)

/-- What the parser is asked for. -/
inductive Request where
  | program (tokens : List Token)
  | expression (tokens : List Token)

/-- What it returns: the statements that parsed, or an expression or the report on it. -/
inductive Returned where
  | program (parsed : Parsed)
  | expression (result : Except Diagnostic Expr)

namespace Returned

/-- The identities in the trees that are returned. -/
def ids : Returned → List NodeId
  | program parsed => Stmt.idsOfAll parsed.statements
  | expression (.ok e) => e.ids
  | expression (.error _) => []

end Returned

namespace Request

/-- Parses, drawing identities from `n` on, and tells the next one. -/
def serve (n : NodeId) : Request → Returned × NodeId
  | program tokens => (.program (parseProgram tokens n), (parseProgram tokens n).nextId)
  | expression tokens => (.expression (parseExpression tokens n).1, (parseExpression tokens n).2)

/-- Requests one after another, which all draw from the same identities. -/
def serveAll (n : NodeId) : List Request → List Returned × NodeId
  | [] => ([], n)
  | request :: requests =>
    ((request.serve n).1 :: (serveAll (request.serve n).2 requests).1,
      (serveAll (request.serve n).2 requests).2)

theorem serve_drawn (n : NodeId) (request : Request) :
    Drawn n (request.serve n).1.ids (request.serve n).2 := by
  cases request with
  | program tokens => exact parseProgram_drawn tokens n
  | expression tokens =>
    obtain ⟨result, s, hs⟩ : ∃ result s,
      Rule.soleExpression (Cursor.ofTokens tokens n) = (result, s) := ⟨_, _, rfl⟩
    have hserve : (expression tokens).serve n = (.expression result, s.nextId) := by
      rw [serve, parseExpression, hs]
    rw [hserve]
    cases result with
    | ok e => exact Rule.soleExpression_draws [] n _ e s .nil hs
    | error d =>
      have hle := Rule.soleExpression_grows.nextId (Cursor.ofTokens tokens n)
      rw [hs] at hle
      exact Drawn.nil.later hle

/-- Ranges of requests that follow one another do not overlap. -/
theorem serveAll_drawn (n : NodeId) (requests : List Request) :
    Drawn n ((serveAll n requests).1.flatMap Returned.ids) (serveAll n requests).2 := by
  induction requests generalizing n with
  | nil => exact .nil
  | cons request requests ih => exact (request.serve_drawn n).append (ih _)

end Request

end TreeWalk
