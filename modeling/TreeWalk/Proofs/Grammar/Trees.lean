import TreeWalk.Proofs.Grammar.ProgramSoundness
import TreeWalk.Proofs.Syntax.Tree

/-! What derivations say of trees: the identities in a tree differ from one another and are drawn
from the range that the derivation names, and declarations stand only in the lists of blocks,
bodies and programs. -/

namespace TreeWalk

namespace Grammar

/-- The identities `ids` differ from one another and lie from `n` up to but not including `n'`. -/
structure Drawn (n : Nat) (ids : List NodeId) (n' : Nat) : Prop where
  le : n ≤ n'
  nodup : ids.Nodup
  within : ∀ i ∈ ids, n ≤ i ∧ i < n'

namespace Drawn

variable {n n₁ n' : Nat} {ids ids' : List NodeId}

theorem nil : Drawn n [] n :=
  ⟨Nat.le_refl n, List.nodup_nil, fun i hi => by cases hi⟩

theorem single : Drawn n [n] (n + 1) := by
  refine ⟨Nat.le_succ n, by simp, fun i hi => ?_⟩
  obtain rfl := List.mem_singleton.mp hi
  exact ⟨Nat.le_refl i, Nat.lt_succ_self i⟩

/-- Ranges that follow one another do not overlap. -/
theorem append (h : Drawn n ids n₁) (h' : Drawn n₁ ids' n') : Drawn n (ids ++ ids') n' := by
  have hle := h.le
  have hle' := h'.le
  refine ⟨Nat.le_trans hle hle', ?_, fun i hi => ?_⟩
  · refine List.nodup_append.mpr ⟨h.nodup, h'.nodup, fun i hi j hj => ?_⟩
    have hlt := (h.within i hi).2
    have hge := (h'.within j hj).1
    exact Nat.ne_of_lt (Nat.lt_of_lt_of_le hlt hge)
  · rcases List.mem_append.mp hi with hi | hi
    · have := h.within i hi
      exact ⟨this.1, Nat.lt_of_lt_of_le this.2 hle'⟩
    · have := h'.within i hi
      exact ⟨Nat.le_trans hle this.1, this.2⟩

theorem of_succ (h : Drawn (n + 1) ids n') : Drawn n ids n' :=
  ⟨Nat.le_of_succ_le h.le, h.nodup, fun i hi =>
    ⟨Nat.le_of_succ_le (h.within i hi).1, (h.within i hi).2⟩⟩

theorem perm (h : Drawn n ids n') (hp : ids'.Perm ids) : Drawn n ids' n' :=
  ⟨h.le, hp.nodup_iff.mpr h.nodup, fun i hi => h.within i (hp.mem_iff.mp hi)⟩

end Drawn

theorem Level.ids_join (level : Level) (left : Expr) (operator : Token) (right : Expr) :
    (level.join left operator right).ids = left.ids ++ right.ids := by
  cases level <;> rfl

mutual

theorem Phrase.drawn {level : Level} {n n' : Nat} {ts : List Token} {e : Expr}
    (h : Phrase level n ts e n') : Drawn n e.ids n' := by
  match h with
  | .tighter _ h => exact h.drawn
  | .operation _ _ h₁ h₂ =>
    rw [Level.ids_join]
    exact h₁.drawn.append h₂.drawn
  | .assignment _ _ h => exact h.drawn.of_succ.append .single
  | .unary _ h => exact h.drawn
  | .emptyCall h _ _ => exact h.drawn.append .nil
  | .call h _ hargs _ _ => exact h.drawn.append hargs.drawn
  | .constant _ => exact .nil
  | .name _ => exact .single
  | .grouping _ h _ => exact h.drawn

theorem Arguments.drawn {n n' : Nat} {ts : List Token} {es : List Expr}
    (h : Arguments n ts es n') : Drawn n (Expr.idsOfAll es) n' := by
  match h with
  | .one h => simpa only [Expr.idsOfAll, List.append_nil] using h.drawn
  | .more h _ h' =>
    have hids := h.drawn.append h'.drawn
    simpa only [Expr.idsOfAll_append, Expr.idsOfAll, List.append_nil] using hids

end

theorem OptionalPhrase.drawn {n n' : Nat} {ts : List Token} {e : Option Expr}
    (h : OptionalPhrase n ts e n') : Drawn n (Expr.idsOfOption e) n' := by
  cases h with
  | absent => exact .nil
  | present h => exact h.drawn

theorem ExpressionStatement.drawn {n n' : Nat} {ts : List Token} {s : Stmt}
    (h : ExpressionStatement n ts s n') : Drawn n s.ids n' := by
  cases h with
  | intro h => exact h.drawn

theorem VariableDeclaration.drawn {n n' : Nat} {ts : List Token} {s : Stmt}
    (h : VariableDeclaration n ts s n') : Drawn n s.ids n' := by
  cases h with
  | bare => exact .nil
  | initialized _ _ _ h => exact h.drawn

theorem LoopStart.drawn {n n' : Nat} {ts : List Token} {s : Option Stmt}
    (h : LoopStart n ts s n') : Drawn n (Stmt.idsOfOption s) n' := by
  cases h with
  | absent => exact .nil
  | declaration h => exact h.drawn
  | expression h => exact h.drawn

mutual

theorem Statement.drawn {attachment : Attachment} {n n' : Nat} {ts : List Token} {s : Stmt}
    {dangling : Bool} (h : Statement attachment n ts s dangling n') : Drawn n s.ids n' := by
  match h with
  | .expression h => exact h.drawn
  | .print _ h _ => exact h.drawn
  | .returnFrom _ h _ => exact h.drawn
  | .whileLoop _ _ h _ hbody => exact h.drawn.append hbody.drawn
  | .ifThen _ _ h _ hthen => exact h.drawn.append hthen.drawn
  | .ifElse _ _ h _ hthen _ _ helse => exact (h.drawn.append hthen.drawn).append helse.drawn
  | .forLoop _ _ hstart hcondition _ hincrement _ hbody htree =>
    rw [loopTree_iff.mp htree]
    have hloop := hincrement.drawn.append hbody.drawn
    exact (hstart.drawn.append (hcondition.drawn.append hloop)).perm (Stmt.ids_forLoop ..)
  | .block _ h _ => exact h.drawn

theorem Declaration.drawn {attachment : Attachment} {n n' : Nat} {ts : List Token} {s : Stmt}
    {dangling : Bool} (h : Declaration attachment n ts s dangling n') : Drawn n s.ids n' := by
  match h with
  | .function _ _ _ _ _ _ h _ => exact h.drawn
  | .binding h => exact h.drawn
  | .statement h => exact h.drawn

theorem Declarations.drawn {attachment : Attachment} {n n' : Nat} {ts : List Token}
    {body : List Stmt} (h : Declarations attachment n ts body n') :
    Drawn n (Stmt.idsOfAll body) n' := by
  match h with
  | .nil => exact .nil
  | .cons h h' => exact h.drawn.append h'.drawn

end

theorem ExpressionStatement.not_declaration {n n' : Nat} {ts : List Token} {s : Stmt}
    (h : ExpressionStatement n ts s n') : s.isDeclaration = false ∧ s.Regular := by
  cases h with
  | intro => exact ⟨rfl, trivial⟩

theorem VariableDeclaration.regular {n n' : Nat} {ts : List Token} {s : Stmt}
    (h : VariableDeclaration n ts s n') : s.Regular := by
  cases h <;> exact trivial

/-- A loop is built from blocks and a while loop, so nothing in it leaves its list. -/
theorem LoopStart.regular_forLoop {n n' : Nat} {ts : List Token} {initializer : Option Stmt}
    (h : LoopStart n ts initializer n') {condition increment : Option Expr} {body : Stmt}
    (hbody : body.isDeclaration = false ∧ body.Regular) :
    (Stmt.forLoop initializer condition increment body).isDeclaration = false ∧
      (Stmt.forLoop initializer condition increment body).Regular := by
  have hfirst : ∀ s, initializer = some s → s.Regular := by
    intro s hs
    subst hs
    cases h with
    | declaration h => exact h.regular
    | expression h => exact h.not_declaration.2
  cases initializer <;> cases increment <;>
    simp_all [Stmt.forLoop, Stmt.Regular, Stmt.AllRegular, Stmt.isDeclaration]

mutual

theorem Statement.not_declaration {attachment : Attachment} {n n' : Nat} {ts : List Token}
    {s : Stmt} {dangling : Bool} (h : Statement attachment n ts s dangling n') :
    s.isDeclaration = false ∧ s.Regular := by
  match h with
  | .expression h => exact h.not_declaration
  | .print _ _ _ => exact ⟨rfl, trivial⟩
  | .returnFrom _ _ _ => exact ⟨rfl, trivial⟩
  | .whileLoop _ _ _ _ hbody => exact ⟨rfl, hbody.not_declaration⟩
  | .ifThen _ _ _ _ hthen => exact ⟨rfl, hthen.not_declaration⟩
  | .ifElse _ _ _ _ hthen _ _ helse =>
    exact ⟨rfl, hthen.not_declaration, helse.not_declaration⟩
  | .forLoop _ _ hstart _ _ _ _ hbody htree =>
    rw [loopTree_iff.mp htree]
    exact hstart.regular_forLoop hbody.not_declaration
  | .block _ h _ => exact ⟨rfl, h.regular⟩

theorem Declaration.regular {attachment : Attachment} {n n' : Nat} {ts : List Token} {s : Stmt}
    {dangling : Bool} (h : Declaration attachment n ts s dangling n') : s.Regular := by
  match h with
  | .function _ _ _ _ _ _ h _ => exact h.regular
  | .binding h => exact h.regular
  | .statement h => exact h.not_declaration.2

theorem Declarations.regular {attachment : Attachment} {n n' : Nat} {ts : List Token}
    {body : List Stmt} (h : Declarations attachment n ts body n') :
    Stmt.AllRegular body := by
  match h with
  | .nil => exact trivial
  | .cons h h' => exact ⟨h.regular, h'.regular⟩

end

end Grammar

end TreeWalk
