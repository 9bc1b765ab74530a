import TreeWalk.Machine.Operator
import TreeWalk.Proofs.Program.Accepted

/-! Operators of derived trees. Every operation in a tree stands at a level of the grammar, so its
operator is one that the machine has a case for. -/

namespace TreeWalk

namespace Operation

def unaryKinds : List Kind :=
  [.punctuator .bang, .punctuator .minus]

def binaryKinds : List Kind :=
  [.punctuator .plus, .punctuator .minus, .punctuator .star, .punctuator .slash,
    .punctuator .greater, .punctuator .greaterEqual, .punctuator .less, .punctuator .lessEqual,
    .punctuator .equalEqual, .punctuator .bangEqual]

def logicalKinds : List Kind :=
  [.keyword .and_, .keyword .or_]

theorem onNumbers_ne_invalid {v w : Value} {f : Float → Float → Operation}
    (hf : ∀ x y, f x y ≠ .error .invalidBinaryOperator) :
    onNumbers v w f ≠ .error .invalidBinaryOperator := by
  unfold onNumbers
  split
  · exact hf _ _
  · nofun

theorem add_ne_invalid (v w : Value) : add v w ≠ .error .invalidBinaryOperator := by
  unfold add
  split <;> nofun

theorem divide_ne_invalid (x y : Float) : divide x y ≠ .error .invalidBinaryOperator := by
  unfold divide
  split <;> nofun

/-- The operators that are invalid for whatever operand are those that are not listed. -/
theorem unary_ne_invalid_iff {k : Kind} {v : Value} :
    unary k v ≠ .error .invalidUnaryOperator ↔ k ∈ unaryKinds := by
  constructor
  · intro h
    unfold unary at h
    split at h
    · exact List.mem_cons_of_mem _ List.mem_cons_self
    · exact List.mem_cons_self
    · exact absurd rfl h
  · intro h
    simp only [unaryKinds, List.mem_cons, List.not_mem_nil, or_false] at h
    rcases h with rfl | rfl
    · intro h
      cases h
    · intro h
      rcases v with (_ | _ | _ | _) | f | f <;> cases h

theorem binary_ne_invalid_iff {k : Kind} {v w : Value} :
    binary k v w ≠ .error .invalidBinaryOperator ↔ k ∈ binaryKinds := by
  constructor
  · intro h
    unfold binary at h
    -- Only the last case of the operation fails in this way.
    split at h
    case h_11 => exact absurd rfl h
    all_goals simp [binaryKinds]
  · intro h
    simp only [binaryKinds, List.mem_cons, List.not_mem_nil, or_false] at h
    rcases h with rfl | rfl | rfl | rfl | rfl | rfl | rfl | rfl | rfl | rfl
    · exact add_ne_invalid v w
    · exact onNumbers_ne_invalid fun x y h => by cases h
    · exact onNumbers_ne_invalid fun x y h => by cases h
    · exact onNumbers_ne_invalid divide_ne_invalid
    · exact onNumbers_ne_invalid fun x y h => by cases h
    · exact onNumbers_ne_invalid fun x y h => by cases h
    · exact onNumbers_ne_invalid fun x y h => by cases h
    · exact onNumbers_ne_invalid fun x y h => by cases h
    · intro h
      cases h
    · intro h
      cases h

end Operation

namespace Expr

/-- The machine has a case for the operator of the expression itself. -/
def OperatorFits : Expr → Prop
  | unary operator _ => operator.kind ∈ Operation.unaryKinds
  | binary _ operator _ => operator.kind ∈ Operation.binaryKinds
  | logical _ operator _ => operator.kind ∈ Operation.logicalKinds
  | _ => True

theorem partsOfAll_append (es es' : List Expr) :
    partsOfAll (es ++ es') = partsOfAll es ++ partsOfAll es' := by
  induction es with
  | nil => rfl
  | cons e es ih => simp only [List.cons_append, partsOfAll, ih, List.append_assoc]

end Expr

namespace Grammar

theorem Level.parts_join (level : Level) (left : Expr) (operator : Token) (right : Expr) :
    (level.join left operator right).parts =
      level.join left operator right :: (left.parts ++ right.parts) := by
  cases level <;> rfl

theorem Level.operatorFits_join {level : Level} {left right : Expr} {operator : Token}
    (h : operator.kind ∈ level.operators) : (level.join left operator right).OperatorFits := by
  cases level with
  | disjunction =>
    have hsub : ∀ k ∈ disjunction.operators, k ∈ Operation.logicalKinds := by decide
    exact hsub _ h
  | conjunction =>
    have hsub : ∀ k ∈ conjunction.operators, k ∈ Operation.logicalKinds := by decide
    exact hsub _ h
  | equality =>
    have hsub : ∀ k ∈ equality.operators, k ∈ Operation.binaryKinds := by decide
    exact hsub _ h
  | comparison =>
    have hsub : ∀ k ∈ comparison.operators, k ∈ Operation.binaryKinds := by decide
    exact hsub _ h
  | term =>
    have hsub : ∀ k ∈ term.operators, k ∈ Operation.binaryKinds := by decide
    exact hsub _ h
  | factor =>
    have hsub : ∀ k ∈ factor.operators, k ∈ Operation.binaryKinds := by decide
    exact hsub _ h
  | assignment | unary | call | primary => cases h

/-- All operators in an expression fit. -/
abbrev Fitting (parts : List Expr) : Prop :=
  ∀ part ∈ parts, part.OperatorFits

mutual

theorem Phrase.fitting {level : Level} {n n' : Nat} {ts : List Token} {e : Expr}
    (h : Phrase level n ts e n') : Fitting e.parts := by
  match h with
  | .tighter _ h => exact h.fitting
  | .operation _ hoperator h₁ h₂ =>
    rw [Level.parts_join]
    exact List.forall_mem_cons.mpr ⟨Level.operatorFits_join hoperator,
      List.forall_mem_append.mpr ⟨h₁.fitting, h₂.fitting⟩⟩
  | .assignment _ _ h => exact List.forall_mem_cons.mpr ⟨trivial, h.fitting⟩
  | .unary hoperator h =>
    refine List.forall_mem_cons.mpr ⟨?_, h.fitting⟩
    rcases hoperator with hbang | hminus
    · rw [Expr.OperatorFits, hbang]
      exact List.mem_cons_self
    · rw [Expr.OperatorFits, hminus]
      exact List.mem_cons_of_mem _ List.mem_cons_self
  | .emptyCall h _ _ =>
    exact List.forall_mem_cons.mpr ⟨trivial,
      List.forall_mem_append.mpr ⟨h.fitting, fun part hpart => nomatch hpart⟩⟩
  | .call h _ harguments _ _ =>
    exact List.forall_mem_cons.mpr ⟨trivial,
      List.forall_mem_append.mpr ⟨h.fitting, harguments.fitting⟩⟩
  | .constant _ => exact List.forall_mem_singleton.mpr trivial
  | .name _ => exact List.forall_mem_singleton.mpr trivial
  | .grouping _ h _ => exact List.forall_mem_cons.mpr ⟨trivial, h.fitting⟩

theorem Arguments.fitting {n n' : Nat} {ts : List Token} {es : List Expr}
    (h : Arguments n ts es n') : Fitting (Expr.partsOfAll es) := by
  match h with
  | .one h =>
    rw [Expr.partsOfAll, Expr.partsOfAll, List.append_nil]
    exact h.fitting
  | .more h _ h' =>
    rw [Expr.partsOfAll_append, Expr.partsOfAll, Expr.partsOfAll, List.append_nil]
    exact List.forall_mem_append.mpr ⟨h.fitting, h'.fitting⟩

end

theorem OptionalPhrase.fitting {n n' : Nat} {ts : List Token} {e : Option Expr}
    (h : OptionalPhrase n ts e n') : Fitting (Expr.partsOfOption e) := by
  cases h with
  | absent => exact fun part hpart => nomatch hpart
  | present h => exact h.fitting

end Grammar

namespace Stmt

/-- All operators in a statement fit. -/
def Fitting (s : Stmt) : Prop :=
  ∀ regions, ∀ site ∈ s.sites regions, site.2.OperatorFits

def AllFitting (ss : List Stmt) : Prop :=
  ∀ regions, ∀ site ∈ sitesOfAll regions ss, site.2.OperatorFits

theorem fitting_sites {parts : List Expr} (h : Grammar.Fitting parts) (regions : List Region) :
    ∀ site ∈ parts.map (regions, ·), site.2.OperatorFits := by
  intro site hsite
  obtain ⟨part, hpart, rfl⟩ := List.mem_map.mp hsite
  exact h part hpart

theorem allFitting_nil : AllFitting [] :=
  fun _ _ h => nomatch h

theorem allFitting_cons {s : Stmt} {ss : List Stmt} (h : s.Fitting) (hs : AllFitting ss) :
    AllFitting (s :: ss) :=
  fun regions => List.forall_mem_append.mpr ⟨h regions, hs regions⟩

theorem fitting_expression {e : Expr} (h : Grammar.Fitting e.parts) : (expression e).Fitting :=
  fitting_sites h

theorem fitting_whileLoop {condition : Expr} {body : Stmt}
    (h : Grammar.Fitting condition.parts) (hbody : body.Fitting) :
    (whileLoop condition body).Fitting :=
  fun regions => List.forall_mem_append.mpr ⟨fitting_sites h regions, hbody regions⟩

theorem fitting_block {body : List Stmt} (h : AllFitting body) : (block body).Fitting :=
  fun regions => h (⟨[], body⟩ :: regions)

/-- What a loop is built from adds no operator. -/
theorem fitting_forLoop {initializer : Option Stmt} {condition increment : Option Expr}
    {body : Stmt} (hinitializer : ∀ s ∈ initializer, s.Fitting)
    (hcondition : Grammar.Fitting (Expr.partsOfOption condition))
    (hincrement : Grammar.Fitting (Expr.partsOfOption increment)) (hbody : body.Fitting) :
    (forLoop initializer condition increment body).Fitting := by
  have htest : Grammar.Fitting (condition.getD (.literal (.bool true))).parts := by
    cases condition with
    | none => exact List.forall_mem_singleton.mpr trivial
    | some e => exact hcondition
  have hround : ∀ e ∈ increment, (block [body, expression e]).Fitting := by
    rintro e rfl
    exact fitting_block (allFitting_cons hbody (allFitting_cons (fitting_expression hincrement)
      allFitting_nil))
  have hloop : (forLoop none condition increment body).Fitting := by
    cases increment with
    | none => exact fitting_whileLoop htest hbody
    | some e => exact fitting_whileLoop htest (hround e rfl)
  cases initializer with
  | none => exact hloop
  | some s =>
    have hlast := allFitting_cons hloop allFitting_nil
    exact fitting_block (allFitting_cons (hinitializer s rfl) hlast)

end Stmt

namespace Grammar

theorem ExpressionStatement.fitting {n n' : Nat} {ts : List Token} {s : Stmt}
    (h : ExpressionStatement n ts s n') : s.Fitting := by
  cases h with
  | intro h => exact Stmt.fitting_expression h.fitting

theorem VariableDeclaration.fitting {n n' : Nat} {ts : List Token} {s : Stmt}
    (h : VariableDeclaration n ts s n') : s.Fitting := by
  cases h with
  | bare => exact Stmt.fitting_sites fun part hpart => nomatch hpart
  | initialized _ _ _ h => exact Stmt.fitting_sites h.fitting

theorem LoopStart.fitting {n n' : Nat} {ts : List Token} {initializer : Option Stmt}
    (h : LoopStart n ts initializer n') : ∀ s ∈ initializer, s.Fitting := by
  rintro s rfl
  cases h with
  | declaration h => exact h.fitting
  | expression h => exact h.fitting

mutual

theorem Statement.fitting {attachment : Attachment} {n n' : Nat} {ts : List Token} {s : Stmt}
    {dangling : Bool} (h : Statement attachment n ts s dangling n') : s.Fitting := by
  match h with
  | .expression h => exact h.fitting
  | .print _ h _ => exact Stmt.fitting_sites h.fitting
  | .returnFrom _ h _ => exact Stmt.fitting_sites h.fitting
  | .whileLoop _ _ h _ hbody => exact Stmt.fitting_whileLoop h.fitting hbody.fitting
  | .ifThen _ _ h _ hthen =>
    exact fun regions => List.forall_mem_append.mpr
      ⟨Stmt.fitting_sites h.fitting regions, hthen.fitting regions⟩
  | .ifElse _ _ h _ hthen _ _ helse =>
    exact fun regions => List.forall_mem_append.mpr ⟨Stmt.fitting_sites h.fitting regions,
      List.forall_mem_append.mpr ⟨hthen.fitting regions, helse.fitting regions⟩⟩
  | .forLoop _ _ hstart hcondition _ hincrement _ hbody htree =>
    rw [loopTree_iff.mp htree]
    exact Stmt.fitting_forLoop hstart.fitting hcondition.fitting hincrement.fitting hbody.fitting
  | .block _ h _ => exact Stmt.fitting_block h.fitting

theorem Declaration.fitting {attachment : Attachment} {n n' : Nat} {ts : List Token} {s : Stmt}
    {dangling : Bool} (h : Declaration attachment n ts s dangling n') : s.Fitting := by
  match h with
  | .function _ _ _ _ _ _ h _ => exact fun regions => h.fitting (_ :: regions)
  | .binding h => exact h.fitting
  | .statement h => exact h.fitting

theorem Declarations.fitting {attachment : Attachment} {n n' : Nat} {ts : List Token}
    {body : List Stmt} (h : Declarations attachment n ts body n') : Stmt.AllFitting body := by
  match h with
  | .nil => exact Stmt.allFitting_nil
  | .cons h h' => exact Stmt.allFitting_cons h.fitting h'.fitting

end

end Grammar

/-- Whatever is evaluated in an accepted program has an operator that the machine has a case for. -/
theorem Program.operatorFits {source : String} {n : Nat} (h : (ofSource source n).errors = [])
    {regions : List Region} {e : Expr} (he : (regions, e) ∈ (ofSource source n).sites) :
    e.OperatorFits := by
  obtain ⟨ts, hts⟩ := derived h
  exact hts.fitting [] _ he

end TreeWalk
