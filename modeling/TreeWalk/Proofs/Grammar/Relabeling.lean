import TreeWalk.Grammar.Parse
import TreeWalk.Proofs.Grammar.Clean
import TreeWalk.Proofs.Syntax.Tree

/-! Parsing does not depend on the lines of the tokens, on where identities are drawn from or on the
reports made before: the same tokens on other lines are parsed to the same trees and reports on
those lines. -/

namespace TreeWalk

/-- What parsing carries along without looking at it. -/
structure Relabeling where
  node : NodeId → NodeId
  node_succ : ∀ n, node (n + 1) = node n + 1
  line : Nat → Nat
  /-- Reports that are there already. -/
  prior : List Diagnostic

namespace Relabeling

variable (σ : Relabeling)

def token (t : Token) : Token :=
  { t with line := σ.line t.line }

def expr (e : Expr) : Expr :=
  e.map σ.node σ.token

def stmt (s : Stmt) : Stmt :=
  s.map σ.node σ.token

def diagnostic : Diagnostic → Diagnostic
  | .lexical line cause => .lexical (σ.line line) cause
  | .syntactic t cause => .syntactic (σ.token t) cause
  | .scoping t cause => .scoping (σ.token t) cause
  | .runtime t cause => .runtime (σ.token t) cause
  | .sink cause => .sink cause

/-- A result where `g` tells what becomes of a good one. -/
def result {α β : Type} (g : α → β) : Except Diagnostic α → Except Diagnostic β
  | .ok a => .ok (g a)
  | .error d => .error (σ.diagnostic d)

/-- Without a change of lines tokens stay what they are. -/
theorem token_eq (h : σ.line = id) (t : Token) : σ.token t = t := by
  rw [token, h]
  rfl

theorem diagnostic_eq (h : σ.line = id) (d : Diagnostic) : σ.diagnostic d = d := by
  cases d with
  | lexical line cause => rw [diagnostic, h, id]
  | syntactic t cause | scoping t cause | runtime t cause => rw [diagnostic, σ.token_eq h]
  | sink cause => rfl

theorem expr_unary (operators : List Token) (operand : Expr) :
    σ.expr (operators.foldr .unary operand) =
      (operators.map σ.token).foldr .unary (σ.expr operand) := by
  induction operators with
  | nil => rfl
  | cons operator operators ih => exact congrArg (Expr.unary _) ih

theorem stmt_forLoop (initializer : Option Stmt) (condition increment : Option Expr) (body : Stmt) :
    σ.stmt (.forLoop initializer condition increment body) =
      .forLoop (initializer.map σ.stmt) (condition.map σ.expr) (increment.map σ.expr)
        (σ.stmt body) :=
  Stmt.map_forLoop σ.node σ.token initializer condition increment body

theorem stmt_block (body : List Stmt) : σ.stmt (.block body) = .block (body.map σ.stmt) := by
  rw [stmt, Stmt.map, Stmt.mapAll_eq_map]
  rfl

theorem stmt_function (name : Token) (params : List Token) (body : List Stmt) :
    σ.stmt (.function name params body) =
      .function (σ.token name) (params.map σ.token) (body.map σ.stmt) := by
  rw [stmt, Stmt.map, Stmt.mapAll_eq_map]
  rfl

/-- The state of parsing the same tokens, relabeled. -/
def cursor (s : Cursor) : Cursor :=
  ⟨s.rest.map σ.token, σ.token s.stop, σ.prior ++ s.reports.map σ.diagnostic, σ.node s.nextId⟩

theorem head_cursor (s : Cursor) : (σ.cursor s).head = σ.token s.head := by
  cases s with
  | mk rest stop reports nextId => cases rest <;> rfl

theorem length_cursor (s : Cursor) : (σ.cursor s).rest.length = s.rest.length :=
  List.length_map _

end Relabeling

namespace Rule

variable {σ : Relabeling} {α β γ δ : Type} {p : Token → Bool}

/-- The rule `r'` does with relabeled tokens what the rule `r` does, with the result that `g`
tells. -/
def Moves (σ : Relabeling) (g : α → β) (r : Rule α) (r' : Rule β) : Prop :=
  ∀ s, r' (σ.cursor s) = (σ.result g (r s).1, σ.cursor (r s).2)

namespace Moves

variable {g : α → β} {h : γ → δ} {r : Rule α} {r' : Rule β}

theorem pure (a : α) : Moves σ g (pure a) (pure (g a)) := by
  intro s
  rfl

theorem bind {f : α → Rule γ} {f' : β → Rule δ} (hr : Moves σ g r r')
    (hf : ∀ a, Moves σ h (f a) (f' (g a))) : Moves σ h (r >>= f) (r' >>= f') := by
  intro s
  rw [bind_apply, bind_apply, hr s]
  cases hs : r s with
  | mk result s₁ =>
    cases result with
    | ok a => exact hf a s₁
    | error d => rfl

theorem get : Moves σ σ.cursor get get := by
  intro s
  rfl

/-- A rule that chooses another rule by the cursor. -/
theorem of_apply
    (hr : ∀ s, ∃ q q', r s = q s ∧ r' (σ.cursor s) = q' (σ.cursor s) ∧ Moves σ g q q') :
    Moves σ g r r' := by
  intro s
  obtain ⟨q, q', hq, hq', hmoves⟩ := hr s
  rw [hq, hq']
  exact hmoves s

theorem map {f : α → γ} {f' : β → δ} (hr : Moves σ g r r') (hf : ∀ a, f' (g a) = h (f a)) :
    Moves σ h (f <$> r) (f' <$> r') := by
  rw [map_eq_pure_bind, map_eq_pure_bind]
  refine hr.bind fun a => ?_
  rw [hf]
  exact pure _

theorem discard (hr : Moves σ g r r') : Moves σ id (discard r) (discard r') := by
  have hmap : Moves σ id ((fun _ => PUnit.unit) <$> r) ((fun _ => PUnit.unit) <$> r') :=
    hr.map fun _ => rfl
  exact hmap

theorem ite {c : Prop} [Decidable c] {q : Rule α} {q' : Rule β} (hr : Moves σ g r r')
    (hq : Moves σ g q q') : Moves σ g (if c then r else q) (if c then r' else q') := by
  split
  · exact hr
  · exact hq

theorem fail (cause : SyntacticCause) : Moves σ g (fail cause) (fail cause) := by
  intro s
  have hfail {α : Type} (s : Cursor) :
      (Rule.fail cause : Rule α) s = (.error (.syntactic s.head cause), s) := rfl
  rw [hfail, hfail, σ.head_cursor]
  rfl

theorem report (t : Token) (cause : SyntacticCause) :
    Moves σ id (modify (·.report (.syntactic t cause)))
      (modify (·.report (.syntactic (σ.token t) cause))) := by
  intro s
  have hmodify (f : Cursor → Cursor) (s : Cursor) :
      (modify f : Rule Unit) s = (.ok (), f s) := rfl
  rw [hmodify, hmodify]
  simp [Relabeling.cursor, Cursor.report, Relabeling.result, Relabeling.diagnostic]

theorem complain (cause : SyntacticCause) : Moves σ id (complain cause) (complain cause) := by
  intro s
  have hcomplain (s : Cursor) :
      Rule.complain cause s = (.ok (), s.report (.syntactic s.head cause)) := rfl
  rw [hcomplain, hcomplain, σ.head_cursor]
  simp [Relabeling.cursor, Cursor.report, Relabeling.result, Relabeling.diagnostic]

theorem skip : Moves σ id skip skip := by
  intro s
  cases s with
  | mk rest stop reports nextId => cases rest <;> rfl

theorem sees (hp : ∀ t, p (σ.token t) = p t) : Moves σ id (sees p) (sees p) := by
  intro s
  cases s with
  | mk rest stop reports nextId =>
    cases rest with
    | nil => rfl
    | cons t rest =>
      have hsees (ts : List Token) (t stop reports nextId) :
          Rule.sees p ⟨t :: ts, stop, reports, nextId⟩ = (.ok (p t), ⟨t :: ts, stop, reports, nextId⟩) :=
        rfl
      rw [hsees, Relabeling.cursor, List.map_cons, hsees, hp]
      rfl

theorem accept? (hp : ∀ t, p (σ.token t) = p t) :
    Moves σ (Option.map σ.token) (accept? p) (accept? p) := by
  intro s
  rw [accept?_apply, accept?_apply]
  cases s with
  | mk rest stop reports nextId =>
    cases rest with
    | nil => rfl
    | cons t rest =>
      simp only [Relabeling.cursor, List.map_cons, hp]
      cases p t <;> rfl

theorem accepts (hp : ∀ t, p (σ.token t) = p t) : Moves σ id (accepts p) (accepts p) := by
  unfold Rule.accepts
  refine (accept? hp).bind fun o => ?_
  rw [Option.isSome_map]
  exact pure _

theorem expect {what : Expectation} (hp : ∀ t, p (σ.token t) = p t) :
    Moves σ σ.token (expect p what) (expect p what) := by
  unfold Rule.expect
  refine (accept? hp).bind fun o => ?_
  cases o with
  | none => exact fail _
  | some t => exact pure t

theorem acceptWhile (hp : ∀ t, p (σ.token t) = p t) :
    Moves σ (List.map σ.token) (acceptWhile p) (acceptWhile p) := by
  intro s
  have haccept (s : Cursor) :
      Rule.acceptWhile p s = (.ok (s.rest.takeWhile p), { s with rest := s.rest.dropWhile p }) := rfl
  have hsame : p ∘ σ.token = p := funext hp
  rw [haccept, haccept]
  simp [Relabeling.cursor, Relabeling.result, List.takeWhile_map, List.dropWhile_map, hsame]

theorem freshId : Moves σ σ.node freshId freshId := by
  intro s
  have hfresh (s : Cursor) : Rule.freshId s = (.ok s.nextId, { s with nextId := s.nextId + 1 }) := rfl
  rw [hfresh, hfresh]
  simp only [Relabeling.cursor, Relabeling.result, σ.node_succ]

theorem moreItems {tooMany : SyntacticCause} (hr : Moves σ g r r') (bound : Nat) (items : List α) :
    Moves σ (List.map g) (moreItems tooMany r bound items)
      (moreItems tooMany r' bound (items.map g)) := by
  induction bound generalizing items with
  | zero => exact pure items
  | succ bound ih =>
    rw [Rule.moreItems, Rule.moreItems]
    refine (accepts fun _ => rfl).bind fun yes => ite ?_ (pure items)
    rw [List.length_map]
    have hitem : Moves σ (List.map g)
        (r >>= fun a => Rule.moreItems tooMany r bound (items ++ [a]))
        (r' >>= fun a => Rule.moreItems tooMany r' bound (items.map g ++ [a])) := by
      refine hr.bind fun a => ?_
      have hitems := ih (items ++ [a])
      rwa [List.map_append] at hitems
    exact ite ((complain tooMany).bind fun _ => hitem) hitem

theorem commaSeparated {tooMany : SyntacticCause} (hr : Moves σ g r r') :
    Moves σ (List.map g) (commaSeparated tooMany r) (commaSeparated tooMany r') := by
  unfold Rule.commaSeparated
  refine hr.bind fun first => get.bind fun s => ?_
  rw [σ.length_cursor]
  exact hr.moreItems _ [first]

end Moves

section Expressions

variable {r r' : Rule Expr}

theorem leftAssocFrom_moves {build : Expr → Token → Expr → Expr} {isOperator : Token → Bool}
    {operand : Rule Expr} (ho : Moves σ σ.expr operand operand)
    (hp : ∀ t, isOperator (σ.token t) = isOperator t)
    (hb : ∀ e t e', σ.expr (build e t e') = build (σ.expr e) (σ.token t) (σ.expr e'))
    (bound : Nat) (left : Expr) :
    Moves σ σ.expr (leftAssocFrom build isOperator operand bound left)
      (leftAssocFrom build isOperator operand bound (σ.expr left)) := by
  induction bound generalizing left with
  | zero => exact .pure left
  | succ bound ih =>
    rw [leftAssocFrom, leftAssocFrom]
    refine (Moves.accept? hp).bind fun o => ?_
    cases o with
    | none => exact .pure left
    | some operator =>
      refine ho.bind fun right => ?_
      rw [← hb]
      exact ih _

theorem leftAssoc_moves {build : Expr → Token → Expr → Expr} {isOperator : Token → Bool}
    {operand : Rule Expr} (ho : Moves σ σ.expr operand operand)
    (hp : ∀ t, isOperator (σ.token t) = isOperator t)
    (hb : ∀ e t e', σ.expr (build e t e') = build (σ.expr e) (σ.token t) (σ.expr e')) :
    Moves σ σ.expr (leftAssoc build isOperator operand) (leftAssoc build isOperator operand) := by
  unfold leftAssoc
  refine ho.bind fun left => Moves.get.bind fun s => ?_
  rw [σ.length_cursor]
  exact leftAssocFrom_moves ho hp hb _ left

variable {expression : Rule Expr}

theorem primary_moves (he : Moves σ σ.expr expression expression) :
    Moves σ σ.expr (primary expression) (primary expression) := by
  unfold primary
  refine Moves.get.bind fun s => ?_
  rw [σ.head_cursor]
  have hconstant : (σ.token s.head).constant? = s.head.constant? := rfl
  dsimp only
  rw [hconstant]
  cases s.head.constant? with
  | some value => exact Moves.skip.bind fun _ => .pure (Expr.literal value)
  | none =>
    refine .ite (Moves.skip.bind fun _ => Moves.freshId.bind fun id => .pure (Expr.var id s.head)) ?_
    refine .ite (Moves.skip.bind fun _ => he.bind fun inner => ?_) (.fail _)
    exact (Moves.expect fun _ => rfl).discard.bind fun _ => .pure (Expr.grouping inner)

theorem arguments_moves (he : Moves σ σ.expr expression expression) :
    Moves σ (Prod.map (List.map σ.expr) σ.token) (arguments expression) (arguments expression) := by
  unfold arguments
  refine (Moves.sees fun _ => rfl).bind fun yes => ?_
  have hclose (args : List Expr) : Moves σ (Prod.map (List.map σ.expr) σ.token)
      (expect (·.isPunctuator .rightParen) .parenAfterArguments >>= fun t => pure (args, t))
      (expect (·.isPunctuator .rightParen) .parenAfterArguments >>= fun t =>
        pure (args.map σ.expr, t)) :=
    (Moves.expect fun _ => rfl).bind fun t => .pure (args, t)
  refine .ite ?_ ?_
  · exact (Moves.pure (g := List.map σ.expr) []).bind hclose
  · exact he.commaSeparated.bind hclose

theorem callsFrom_moves (he : Moves σ σ.expr expression expression) (bound : Nat) (callee : Expr) :
    Moves σ σ.expr (callsFrom expression bound callee)
      (callsFrom expression bound (σ.expr callee)) := by
  induction bound generalizing callee with
  | zero => exact .pure callee
  | succ bound ih =>
    rw [callsFrom, callsFrom]
    refine (Moves.accepts fun _ => rfl).bind fun yes => .ite ?_ (.pure callee)
    refine (arguments_moves he).bind fun argumentsAndParen => ?_
    obtain ⟨args, paren⟩ := argumentsAndParen
    have hcall : σ.expr (.call callee paren args) =
        .call (σ.expr callee) (σ.token paren) (args.map σ.expr) := by
      rw [Relabeling.expr, Expr.map, Expr.mapAll_eq_map]
      rfl
    have hcalls := ih (.call callee paren args)
    rwa [hcall] at hcalls

theorem call_moves (he : Moves σ σ.expr expression expression) :
    Moves σ σ.expr (call expression) (call expression) := by
  unfold call
  refine (primary_moves he).bind fun callee => Moves.get.bind fun s => ?_
  rw [σ.length_cursor]
  exact callsFrom_moves he _ callee

theorem unary_moves (he : Moves σ σ.expr expression expression) :
    Moves σ σ.expr (unary expression) (unary expression) := by
  unfold unary
  refine (Moves.acceptWhile fun _ => rfl).bind fun operators => (call_moves he).bind fun operand => ?_
  rw [← σ.expr_unary]
  exact .pure _

theorem disjunction_moves (he : Moves σ σ.expr expression expression) :
    Moves σ σ.expr (disjunction expression) (disjunction expression) := by
  have hfactor : Moves σ σ.expr (factor expression) (factor expression) :=
    leftAssoc_moves (unary_moves he) (fun _ => rfl) fun _ _ _ => rfl
  have hterm : Moves σ σ.expr (term expression) (term expression) :=
    leftAssoc_moves hfactor (fun _ => rfl) fun _ _ _ => rfl
  have hcomparison : Moves σ σ.expr (comparison expression) (comparison expression) :=
    leftAssoc_moves hterm (fun _ => rfl) fun _ _ _ => rfl
  have hequality : Moves σ σ.expr (equality expression) (equality expression) :=
    leftAssoc_moves hcomparison (fun _ => rfl) fun _ _ _ => rfl
  have hconjunction : Moves σ σ.expr (conjunction expression) (conjunction expression) :=
    leftAssoc_moves hequality (fun _ => rfl) fun _ _ _ => rfl
  exact leftAssoc_moves hconjunction (fun _ => rfl) fun _ _ _ => rfl

theorem assignTo_moves (he : Moves σ σ.expr expression expression) (target : Expr) (equals : Token) :
    Moves σ σ.expr (assignTo expression target equals)
      (assignTo expression (σ.expr target) (σ.token equals)) := by
  unfold assignTo
  refine he.bind fun value => ?_
  cases target with
  | var id name => exact Moves.freshId.bind fun id => .pure (Expr.assign id name value)
  | _ => exact (Moves.report equals _).bind fun _ => .pure _

theorem assignment_moves (he : Moves σ σ.expr expression expression) :
    Moves σ σ.expr (assignment expression) (assignment expression) := by
  unfold assignment
  refine (disjunction_moves he).bind fun target => (Moves.accept? fun _ => rfl).bind fun o => ?_
  cases o with
  | none => exact .pure target
  | some equals => exact assignTo_moves he target equals

theorem expressionUpTo_moves (depth : Nat) :
    Moves σ σ.expr (expressionUpTo depth) (expressionUpTo depth) := by
  induction depth with
  | zero => exact Moves.fail (.expected .expression)
  | succ depth ih => exact assignment_moves ih

theorem expression_moves : Moves σ σ.expr Rule.expression Rule.expression := by
  refine .of_apply fun s => ⟨expressionUpTo (s.rest.length + 1),
    expressionUpTo (s.rest.length + 1), rfl, ?_, expressionUpTo_moves _⟩
  rw [Rule.expression, σ.length_cursor]

end Expressions

section Statements

theorem expressionStatement_moves :
    Moves σ σ.stmt expressionStatement expressionStatement := by
  unfold expressionStatement
  refine expression_moves.bind fun e => ?_
  exact (Moves.expect fun _ => rfl).discard.bind fun _ => .pure (Stmt.expression e)

theorem printStatement_moves : Moves σ σ.stmt printStatement printStatement := by
  unfold printStatement
  refine expression_moves.bind fun e => ?_
  exact (Moves.expect fun _ => rfl).discard.bind fun _ => .pure (Stmt.print e)

theorem optionalExpression_moves (closing : Punctuator) :
    Moves σ (Option.map σ.expr) (optionalExpression closing) (optionalExpression closing) := by
  unfold optionalExpression
  refine (Moves.sees fun _ => rfl).bind fun yes => .ite (.pure none) ?_
  exact expression_moves.bind fun e => .pure (some e)

theorem returnStatement_moves (keyword : Token) :
    Moves σ σ.stmt (returnStatement keyword) (returnStatement (σ.token keyword)) := by
  unfold returnStatement
  refine (optionalExpression_moves _).bind fun value => ?_
  exact (Moves.expect fun _ => rfl).discard.bind fun _ => .pure (Stmt.returnFrom keyword value)

theorem variableDeclaration_moves : Moves σ σ.stmt variableDeclaration variableDeclaration := by
  unfold variableDeclaration
  refine (Moves.expect fun _ => rfl).bind fun name => (Moves.accepts fun _ => rfl).bind fun yes => ?_
  have hclose (initializer : Option Expr) : Moves σ σ.stmt
      (discard (expect (·.isPunctuator .semicolon) .semicolonAfterDeclaration) >>= fun _ =>
        pure (Stmt.declare name initializer))
      (discard (expect (·.isPunctuator .semicolon) .semicolonAfterDeclaration) >>= fun _ =>
        pure (Stmt.declare (σ.token name) (initializer.map σ.expr))) :=
    (Moves.expect fun _ => rfl).discard.bind fun _ => .pure (Stmt.declare name initializer)
  refine .ite ?_ ?_
  · exact (expression_moves.map (h := Option.map σ.expr) fun _ => rfl).bind hclose
  · exact (Moves.pure (g := Option.map σ.expr) none).bind hclose

variable {statement : Rule Stmt} {block : Rule (List Stmt)}

theorem whileStatement_moves (hs : Moves σ σ.stmt statement statement) :
    Moves σ σ.stmt (whileStatement statement) (whileStatement statement) := by
  unfold whileStatement
  refine (Moves.expect fun _ => rfl).discard.bind fun _ => expression_moves.bind fun condition => ?_
  refine (Moves.expect fun _ => rfl).discard.bind fun _ => ?_
  exact hs.bind fun body => .pure (Stmt.whileLoop condition body)

theorem ifStatement_moves (hs : Moves σ σ.stmt statement statement) :
    Moves σ σ.stmt (ifStatement statement) (ifStatement statement) := by
  unfold ifStatement
  refine (Moves.expect fun _ => rfl).discard.bind fun _ => expression_moves.bind fun condition => ?_
  refine (Moves.expect fun _ => rfl).discard.bind fun _ => hs.bind fun thenBranch => ?_
  refine (Moves.accepts fun _ => rfl).bind fun yes => .ite ?_ ?_
  · exact hs.bind fun elseBranch => .pure (Stmt.ifElse condition thenBranch elseBranch)
  · exact .pure (Stmt.ifThen condition thenBranch)

theorem forInitializer_moves :
    Moves σ (Option.map σ.stmt) forInitializer forInitializer := by
  unfold forInitializer
  refine (Moves.accepts fun _ => rfl).bind fun yes => .ite (.pure none) ?_
  refine (Moves.accepts fun _ => rfl).bind fun yes => .ite ?_ ?_
  · exact variableDeclaration_moves.bind fun s => .pure (some s)
  · exact expressionStatement_moves.bind fun s => .pure (some s)

theorem forStatement_moves (hs : Moves σ σ.stmt statement statement) :
    Moves σ σ.stmt (forStatement statement) (forStatement statement) := by
  unfold forStatement
  refine (Moves.expect fun _ => rfl).discard.bind fun _ => ?_
  refine forInitializer_moves.bind fun initializer => ?_
  refine (optionalExpression_moves _).bind fun condition => ?_
  refine (Moves.expect fun _ => rfl).discard.bind fun _ => ?_
  refine (optionalExpression_moves _).bind fun increment => ?_
  refine (Moves.expect fun _ => rfl).discard.bind fun _ => hs.bind fun body => ?_
  rw [← σ.stmt_forLoop]
  exact .pure _

theorem statementWith_moves (hs : Moves σ σ.stmt statement statement)
    (hb : Moves σ (List.map σ.stmt) block block) :
    Moves σ σ.stmt (statementWith statement block) (statementWith statement block) := by
  unfold statementWith
  refine (Moves.accepts fun _ => rfl).bind fun yes => .ite (forStatement_moves hs) ?_
  refine (Moves.accepts fun _ => rfl).bind fun yes => .ite (ifStatement_moves hs) ?_
  refine (Moves.accepts fun _ => rfl).bind fun yes => .ite printStatement_moves ?_
  refine (Moves.accept? fun _ => rfl).bind fun keyword => ?_
  cases keyword with
  | some keyword => exact returnStatement_moves keyword
  | none =>
    refine (Moves.accepts fun _ => rfl).bind fun yes => .ite (whileStatement_moves hs) ?_
    refine (Moves.accepts fun _ => rfl).bind fun yes => .ite ?_ expressionStatement_moves
    refine hb.bind fun body => ?_
    rw [← σ.stmt_block]
    exact .pure _

theorem parameters_moves : Moves σ (List.map σ.token) parameters parameters := by
  unfold parameters
  refine (Moves.sees fun _ => rfl).bind fun yes => ?_
  have hclose (params : List Token) : Moves σ (List.map σ.token)
      (discard (expect (·.isPunctuator .rightParen) .parenAfterParameters) >>= fun _ => pure params)
      (discard (expect (·.isPunctuator .rightParen) .parenAfterParameters) >>= fun _ =>
        pure (params.map σ.token)) :=
    (Moves.expect fun _ => rfl).discard.bind fun _ => .pure params
  refine .ite ?_ ?_
  · exact (Moves.pure (g := List.map σ.token) []).bind hclose
  · exact (Moves.expect fun _ => rfl).commaSeparated.bind hclose

theorem functionDeclaration_moves (hb : Moves σ (List.map σ.stmt) block block) :
    Moves σ σ.stmt (functionDeclaration block) (functionDeclaration block) := by
  unfold functionDeclaration
  refine (Moves.expect fun _ => rfl).bind fun name => ?_
  refine (Moves.expect fun _ => rfl).discard.bind fun _ => parameters_moves.bind fun params => ?_
  refine (Moves.expect fun _ => rfl).discard.bind fun _ => hb.bind fun body => ?_
  rw [← σ.stmt_function]
  exact .pure _

theorem declarationWith_moves (hs : Moves σ σ.stmt statement statement)
    (hb : Moves σ (List.map σ.stmt) block block) :
    Moves σ σ.stmt (declarationWith statement block) (declarationWith statement block) := by
  unfold declarationWith
  refine (Moves.accepts fun _ => rfl).bind fun yes => .ite (functionDeclaration_moves hb) ?_
  refine (Moves.accepts fun _ => rfl).bind fun yes => .ite variableDeclaration_moves ?_
  exact statementWith_moves hs hb

end Statements

section Declarations

/-- The action does with relabeled tokens what it does, with the result that `g` tells. -/
def MovesState (σ : Relabeling) {α β : Type} (g : α → β) (action : StateM Cursor α)
    (action' : StateM Cursor β) : Prop :=
  ∀ s, action' (σ.cursor s) = (g (action s).1, σ.cursor (action s).2)

theorem resumption_map (ts : List Token) :
    Cursor.resumption (ts.map σ.token) = (Cursor.resumption ts).map σ.token := by
  induction ts with
  | nil => rfl
  | cons t ts ih =>
    have hstarts : (ts.map σ.token).head?.any Token.startsStatement =
        ts.head?.any Token.startsStatement := by
      cases ts <;> rfl
    have hpunctuator : (σ.token t).isPunctuator .semicolon = t.isPunctuator .semicolon := rfl
    rw [List.map_cons, Cursor.resumption, Cursor.resumption, hstarts, hpunctuator, ih]
    split <;> rfl

theorem recovering_moves {rule : Rule Stmt} (hr : Moves σ σ.stmt rule rule) :
    MovesState σ (Option.map σ.stmt) (recovering rule) (recovering rule) := by
  intro s
  have hmoved := hr s
  obtain ⟨stmt, s₁, hs, hrecovering⟩ | ⟨d, s₁, hs, hrecovering⟩ := recovering_cases rule s
  · rw [hs] at hmoved
    rw [recovering_ok hmoved, hrecovering]
    rfl
  · rw [hs] at hmoved
    rw [recovering_error hmoved, hrecovering]
    simp [Relabeling.cursor, Cursor.report, resumption_map]

theorem declarationsUntil_moves {closes : Token → Bool} {declaration : StateM Cursor (Option Stmt)}
    (hp : ∀ t, closes (σ.token t) = closes t)
    (hd : MovesState σ (Option.map σ.stmt) declaration declaration) (bound : Nat) :
    MovesState σ (List.map σ.stmt) (declarationsUntil closes declaration bound)
      (declarationsUntil closes declaration bound) := by
  induction bound with
  | zero =>
    intro s
    rfl
  | succ bound ih =>
    intro s
    have hcloses : (σ.cursor s).rest.head?.all closes = s.rest.head?.all closes := by
      cases s with
      | mk rest stop reports nextId =>
        cases rest with
        | nil => rfl
        | cons t rest => exact hp t
    rw [declarationsUntil_succ_apply, declarationsUntil_succ_apply, hcloses]
    split
    · rfl
    · rw [hd s]
      obtain ⟨first, s₁, hfirst⟩ : ∃ first s₁, declaration s = (first, s₁) := ⟨_, _, rfl⟩
      obtain ⟨others, s₂, hothers⟩ : ∃ others s₂,
          declarationsUntil closes declaration bound s₁ = (others, s₂) := ⟨_, _, rfl⟩
      simp only [hfirst, ih s₁, hothers]
      cases first <;> rfl

theorem MovesState.lift {α β : Type} {g : α → β} {action : StateM Cursor α}
    {action' : StateM Cursor β} (h : MovesState σ g action action') :
    Moves σ g (liftM action) (liftM action') := by
  intro s
  rw [liftM_apply, liftM_apply, h s]
  rfl

theorem blockOf_moves {declaration : StateM Cursor (Option Stmt)}
    (hd : MovesState σ (Option.map σ.stmt) declaration declaration) :
    Moves σ (List.map σ.stmt) (blockOf declaration) (blockOf declaration) := by
  unfold blockOf
  refine Moves.get.bind fun s => ?_
  dsimp only
  rw [σ.length_cursor]
  refine (declarationsUntil_moves (fun _ => rfl) hd _).lift.bind fun body => ?_
  exact (Moves.expect fun _ => rfl).discard.bind fun _ => .pure body

/-- By induction on the depth of nesting. -/
theorem nested_moves (depth : Nat) :
    Moves σ σ.stmt (statementUpTo depth) (statementUpTo depth) ∧
      MovesState σ (Option.map σ.stmt) (declarationUpTo depth) (declarationUpTo depth) := by
  induction depth with
  | zero => exact ⟨Moves.fail _, recovering_moves (Moves.fail _)⟩
  | succ depth ih =>
    have hblock := blockOf_moves ih.2
    exact ⟨statementWith_moves ih.1 hblock, recovering_moves (declarationWith_moves ih.1 hblock)⟩

theorem declaration_moves :
    MovesState σ (Option.map σ.stmt) Rule.declaration Rule.declaration := by
  intro s
  rw [Rule.declaration, Rule.declaration, σ.length_cursor]
  exact (nested_moves _).2 s

theorem program_moves : MovesState σ (List.map σ.stmt) program program := by
  intro s
  rw [program, program, σ.length_cursor]
  exact declarationsUntil_moves (fun _ => rfl) declaration_moves _ s

end Declarations

end Rule

section Parsing

variable {σ : Relabeling} {tokens : List Token} {n : NodeId}

/-- A token list that has an end mark of its own. -/
theorem Cursor.ofTokens_relabel (hprior : σ.prior = []) (hend : ∃ t ∈ tokens, t.isEnd = true) :
    Cursor.ofTokens (tokens.map σ.token) (σ.node n) = σ.cursor (Cursor.ofTokens tokens n) := by
  have hsame : Token.isEnd ∘ σ.token = Token.isEnd := rfl
  have hnot : (fun t : Token => !t.isEnd) ∘ σ.token = fun t => !t.isEnd := rfl
  have hstop : stopOf (tokens.map σ.token) = σ.token (stopOf tokens) := by
    obtain ⟨t, ht⟩ := Option.isSome_iff_exists.mp (List.find?_isSome.mpr hend)
    rw [stopOf, stopOf, List.find?_map, hsame, ht]
    rfl
  rw [Relabeling.cursor, hprior, ofTokens, ofTokens, hstop, List.takeWhile_map, hnot]
  rfl

/-- Relabeled tokens are parsed to the same statements and reports, relabeled. -/
theorem parseProgram_relabel (hprior : σ.prior = []) (hend : ∃ t ∈ tokens, t.isEnd = true) :
    parseProgram (tokens.map σ.token) (σ.node n) =
      ⟨(parseProgram tokens n).statements.map σ.stmt,
        (parseProgram tokens n).errors.map σ.diagnostic, σ.node (parseProgram tokens n).nextId⟩ := by
  rw [parseProgram, Cursor.ofTokens_relabel hprior hend, Rule.program_moves, Relabeling.cursor,
    hprior]
  rfl

end Parsing

end TreeWalk
