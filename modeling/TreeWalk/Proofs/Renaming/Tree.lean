import TreeWalk.Proofs.Likeness.Tree
import TreeWalk.Resolution

/-! Renaming a local variable: every declaration of a name in one scope, and every variable that is
found in that scope under that name, is spelled another way. -/

namespace TreeWalk

/-- The name `x` spelled as `y`, and any other name as it is. -/
def Token.respell (x y : String) (t : Token) : Token :=
  if t.lexeme = x then { t with lexeme := y } else t

namespace Expr

mutual

/-- Renames `x` to `y` in the variables that are found so many scopes outward. -/
def rename (table : HopTable) (x y : String) (depth : Nat) : Expr → Expr
  | literal value => literal value
  | grouping inner => grouping (rename table x y depth inner)
  | unary operator right => unary operator (rename table x y depth right)
  | binary left operator right =>
    binary (rename table x y depth left) operator (rename table x y depth right)
  | logical left operator right =>
    logical (rename table x y depth left) operator (rename table x y depth right)
  | var id name => var id (if table[id]? = some depth then name.respell x y else name)
  | assign id name value =>
    assign id (if table[id]? = some depth then name.respell x y else name)
      (rename table x y depth value)
  | call callee paren arguments =>
    call (rename table x y depth callee) paren (renameAll table x y depth arguments)

def renameAll (table : HopTable) (x y : String) (depth : Nat) : List Expr → List Expr
  | [] => []
  | e :: es => rename table x y depth e :: renameAll table x y depth es

end

end Expr

namespace Stmt

mutual

/-- Renames `x` to `y` in the scope so many scopes outward: in its declarations of variables, and in
the variables that are found in it. -/
def rename (table : HopTable) (x y : String) (depth : Nat) : Stmt → Stmt
  | expression e => expression (e.rename table x y depth)
  | print e => print (e.rename table x y depth)
  | declare name initializer =>
    declare (if depth = 0 then name.respell x y else name)
      (initializer.map (Expr.rename table x y depth))
  | block body => block (renameAll table x y (depth + 1) body)
  | ifThen condition thenBranch =>
    ifThen (condition.rename table x y depth) (rename table x y depth thenBranch)
  | ifElse condition thenBranch elseBranch =>
    ifElse (condition.rename table x y depth) (rename table x y depth thenBranch)
      (rename table x y depth elseBranch)
  | whileLoop condition body =>
    whileLoop (condition.rename table x y depth) (rename table x y depth body)
  | function name params body => function name params (renameAll table x y (depth + 1) body)
  | returnFrom keyword value =>
    returnFrom keyword (value.map (Expr.rename table x y depth))

def renameAll (table : HopTable) (x y : String) (depth : Nat) : List Stmt → List Stmt
  | [] => []
  | s :: ss => rename table x y depth s :: renameAll table x y depth ss

end

/-- The part that a block or a function declaration opens a scope for. -/
def region? : Stmt → Option Region
  | block body => some ⟨[], body⟩
  | function _ params body => some ⟨params, body⟩
  | _ => none

/-- Renames `x` to `y` in the scope that a block or a function declaration opens. -/
def renameScope (table : HopTable) (x y : String) : Stmt → Stmt
  | block body => block (renameAll table x y 0 body)
  | function name params body =>
    function name (params.map (Token.respell x y)) (renameAll table x y 0 body)
  | s => s

mutual

/-- The second statement is the first one with one occurrence of `s` in it replaced by `s'`. -/
inductive Replaced (s s' : Stmt) : Stmt → Stmt → Prop where
  | here : Replaced s s' s s'
  | block {body body'} : ReplacedIn s s' body body' → Replaced s s' (.block body) (.block body')
  | ifThen {e t t'} : Replaced s s' t t' → Replaced s s' (.ifThen e t) (.ifThen e t')
  | thenBranch {e t t' u} : Replaced s s' t t' →
      Replaced s s' (.ifElse e t u) (.ifElse e t' u)
  | elseBranch {e t u u'} : Replaced s s' u u' →
      Replaced s s' (.ifElse e t u) (.ifElse e t u')
  | whileLoop {e t t'} : Replaced s s' t t' → Replaced s s' (.whileLoop e t) (.whileLoop e t')
  | function {name params body body'} : ReplacedIn s s' body body' →
      Replaced s s' (.function name params body) (.function name params body')

inductive ReplacedIn (s s' : Stmt) : List Stmt → List Stmt → Prop where
  | head {t t' ts} : Replaced s s' t t' → ReplacedIn s s' (t :: ts) (t' :: ts)
  | tail {t ts ts'} : ReplacedIn s s' ts ts' → ReplacedIn s s' (t :: ts) (t :: ts')

end

end Stmt

/-- What a renaming changes: in frames of the second sort `x` is spelled `y`. Identities `ids` keep
their hop counts. -/
def Likeness.respelling (ids : List NodeId) (table : HopTable) (x y : String) : Likeness where
  node id id' d := id' = id ∧ id ∈ ids ∧ table[id]? = d
  line := Eq
  spelled sort n n' := n ≠ y ∧ n' = if sort = true ∧ n = x then y else n

namespace Outlook

/-- Only the frame so many steps outward is of the second sort. -/
def only (depth : Nat) : Outlook :=
  fun d => decide (d = depth)

theorem enter_only (depth : Nat) : (only depth).enter false = only (depth + 1) := by
  funext d
  cases d <;> simp [enter, only]

theorem enter_true_plain : plain.enter true = only 0 := by
  funext d
  cases d <;> simp [enter, only, plain]

theorem sortAt_only (depth : Nat) (hops : Option Nat) :
    (only depth).sortAt hops = decide (hops = some depth) := by
  cases hops <;> simp [sortAt, only]

end Outlook

section Likeness

variable {ids : List NodeId} {table : HopTable} {x y : String}

theorem Likeness.respelling_token (t : TreeWalk.Token) :
    (respelling ids table x y).Token t t :=
  ⟨rfl, rfl, rfl⟩

theorem Likeness.respelling_kept {t : TreeWalk.Token} (h : t.lexeme ≠ y) :
    (respelling ids table x y).Name false t t :=
  ⟨rfl, ⟨h, by simp⟩, rfl⟩

theorem Likeness.respelling_changed {t : TreeWalk.Token} (h : t.lexeme ≠ y) :
    (respelling ids table x y).Name true t (t.respell x y) := by
  unfold TreeWalk.Token.respell
  split
  · next hx => exact ⟨rfl, ⟨h, by simp [hx]⟩, rfl⟩
  · next hx => exact ⟨rfl, ⟨h, by simp [hx]⟩, rfl⟩

/-- A name is respelled just where the frame that it is found in is of the second sort. -/
theorem Likeness.respelling_ite {c : Prop} [Decidable c] {t : TreeWalk.Token} (h : t.lexeme ≠ y) :
    (respelling ids table x y).Name (decide c) t (if c then t.respell x y else t) := by
  by_cases hc : c
  · rw [if_pos hc, decide_eq_true hc]
    exact respelling_changed h
  · rw [if_neg hc, decide_eq_false hc]
    exact respelling_kept h

mutual

theorem Expr.alike_rename (depth : Nat) {e : Expr} (hids : ∀ id ∈ e.ids, id ∈ ids)
    (hy : y ∉ e.names) :
    Expr.Alike (.respelling ids table x y) (.only depth) e (e.rename table x y depth) := by
  have htoken (t : Token) : (Likeness.respelling ids table x y).Token t t :=
    Likeness.respelling_token t
  match e with
  | .literal _ => exact .literal
  | .grouping _ => exact .grouping (Expr.alike_rename depth hids hy)
  | .unary operator _ => exact .unary (htoken operator) (Expr.alike_rename depth hids hy)
  | .binary _ operator _ =>
    simp only [Expr.ids, Expr.names, List.mem_append, not_or] at hids hy
    exact .binary (Expr.alike_rename depth (fun i hi => hids i (.inl hi)) hy.1) (htoken operator)
      (Expr.alike_rename depth (fun i hi => hids i (.inr hi)) hy.2)
  | .logical _ operator _ =>
    simp only [Expr.ids, Expr.names, List.mem_append, not_or] at hids hy
    exact .logical (Expr.alike_rename depth (fun i hi => hids i (.inl hi)) hy.1) (htoken operator)
      (Expr.alike_rename depth (fun i hi => hids i (.inr hi)) hy.2)
  | .var id name =>
    have hname : name.lexeme ≠ y := by simpa [Expr.names, eq_comm] using hy
    refine .var ⟨rfl, hids id (by simp [Expr.ids]), rfl⟩ ?_
    rw [Outlook.sortAt_only]
    exact Likeness.respelling_ite hname
  | .assign id name _ =>
    simp only [Expr.names, List.mem_cons, not_or] at hy
    refine .assign ⟨rfl, hids id (by simp [Expr.ids]), rfl⟩ ?_
      (Expr.alike_rename depth (fun i hi => hids i (by simp [Expr.ids, hi])) hy.2)
    rw [Outlook.sortAt_only]
    exact Likeness.respelling_ite (Ne.symm hy.1)
  | .call _ paren _ =>
    simp only [Expr.ids, Expr.names, List.mem_append, not_or] at hids hy
    exact .call (Expr.alike_rename depth (fun i hi => hids i (.inl hi)) hy.1) (htoken paren)
      (Expr.allAlike_rename depth (fun i hi => hids i (.inr hi)) hy.2)

theorem Expr.allAlike_rename (depth : Nat) {es : List Expr}
    (hids : ∀ id ∈ Expr.idsOfAll es, id ∈ ids) (hy : y ∉ Expr.namesOfAll es) :
    Expr.AllAlike (.respelling ids table x y) (.only depth) es
      (Expr.renameAll table x y depth es) := by
  match es with
  | [] => exact .nil
  | e :: es =>
    simp only [Expr.idsOfAll, Expr.namesOfAll, List.mem_append, not_or] at hids hy
    exact .cons (Expr.alike_rename depth (fun i hi => hids i (.inl hi)) hy.1)
      (Expr.allAlike_rename depth (fun i hi => hids i (.inr hi)) hy.2)

end

theorem Expr.optionAlike_rename (depth : Nat) {e : Option Expr}
    (hids : ∀ id ∈ Expr.idsOfOption e, id ∈ ids) (hy : y ∉ Expr.namesOfOption e) :
    Expr.OptionAlike (.respelling ids table x y) (.only depth) e
      (e.map (Expr.rename table x y depth)) := by
  cases e with
  | none => exact .none
  | some e => exact .some (Expr.alike_rename depth hids hy)

/-- Function declarations of the name `x`, which a renaming leaves alone, are none of these. -/
def Stmt.NotFunction (x : String) (s : Stmt) : Prop :=
  ∀ name params body, s = .function name params body → name.lexeme ≠ x

theorem Stmt.NotFunction.of_not_declaration {s : Stmt} (h : s.isDeclaration = false) :
    s.NotFunction x := by
  rintro name params body rfl
  cases h

mutual

theorem Stmt.alike_rename (depth : Nat) {s : Stmt} (hids : ∀ id ∈ s.ids, id ∈ ids)
    (hy : y ∉ s.names) (hr : s.Regular) (hf : depth = 0 → s.NotFunction x) :
    Stmt.Alike (.respelling ids table x y) (.only depth) s (s.rename table x y depth) := by
  match s with
  | .expression _ => exact .expression (Expr.alike_rename depth hids hy)
  | .print _ => exact .print (Expr.alike_rename depth hids hy)
  | .declare name _ =>
    simp only [Stmt.names, List.mem_cons, not_or] at hy
    refine .declare ?_ (Expr.optionAlike_rename depth hids hy.2)
    have hsort : Outlook.only depth 0 = decide (depth = 0) := by simp [Outlook.only, eq_comm]
    rw [hsort]
    exact Likeness.respelling_ite (Ne.symm hy.1)
  | .block _ =>
    refine .block false ?_
    rw [Outlook.enter_only]
    exact Stmt.allAlike_rename (depth + 1) hids hy hr fun h => by cases h
  | .ifThen _ _ =>
    simp only [Stmt.ids, Stmt.names, List.mem_append, not_or] at hids hy
    exact .ifThen (Expr.alike_rename depth (fun i hi => hids i (.inl hi)) hy.1)
      (Stmt.alike_rename depth (fun i hi => hids i (.inr hi)) hy.2 hr.2
        fun _ => .of_not_declaration hr.1)
  | .ifElse _ _ _ =>
    simp only [Stmt.ids, Stmt.names, List.mem_append, not_or] at hids hy
    exact .ifElse (Expr.alike_rename depth (fun i hi => hids i (.inl (.inl hi))) hy.1.1)
      (Stmt.alike_rename depth (fun i hi => hids i (.inl (.inr hi))) hy.1.2 hr.1.2
        fun _ => .of_not_declaration hr.1.1)
      (Stmt.alike_rename depth (fun i hi => hids i (.inr hi)) hy.2 hr.2.2
        fun _ => .of_not_declaration hr.2.1)
  | .whileLoop _ _ =>
    simp only [Stmt.ids, Stmt.names, List.mem_append, not_or] at hids hy
    exact .whileLoop (Expr.alike_rename depth (fun i hi => hids i (.inl hi)) hy.1)
      (Stmt.alike_rename depth (fun i hi => hids i (.inr hi)) hy.2 hr.2
        fun _ => .of_not_declaration hr.1)
  | .function name params body =>
    simp only [Stmt.names, List.mem_append, List.mem_cons, List.mem_map, not_or] at hy
    refine .function false (Likeness.respelling_token name) ?_ ?_ ?_
    · refine ⟨Ne.symm hy.1.1, ?_⟩
      rw [if_neg]
      rintro ⟨hsort, hx⟩
      exact hf (by simpa [Outlook.only, eq_comm] using hsort) name params body rfl hx
    · refine List.forall₂_same.mpr fun t ht => Likeness.respelling_kept fun h => ?_
      exact hy.1.2 ⟨t, ht, h⟩
    · rw [Outlook.enter_only]
      exact Stmt.allAlike_rename (depth + 1) hids hy.2 hr fun h => by cases h
  | .returnFrom keyword _ =>
    exact .returnFrom (Likeness.respelling_token keyword)
      (Expr.optionAlike_rename depth hids hy)

theorem Stmt.allAlike_rename (depth : Nat) {ss : List Stmt}
    (hids : ∀ id ∈ Stmt.idsOfAll ss, id ∈ ids) (hy : y ∉ Stmt.namesOfAll ss)
    (hr : Stmt.AllRegular ss) (hf : depth = 0 → ∀ s ∈ ss, s.NotFunction x) :
    Stmt.AllAlike (.respelling ids table x y) (.only depth) ss
      (Stmt.renameAll table x y depth ss) := by
  match ss with
  | [] => exact .nil
  | s :: ss =>
    simp only [Stmt.idsOfAll, Stmt.namesOfAll, List.mem_append, not_or] at hids hy
    exact .cons
      (Stmt.alike_rename depth (fun i hi => hids i (.inl hi)) hy.1 hr.1
        fun h => hf h s List.mem_cons_self)
      (Stmt.allAlike_rename depth (fun i hi => hids i (.inr hi)) hy.2 hr.2
        fun h s' hs => hf h s' (List.mem_cons_of_mem _ hs))

end

/-- The scope that is renamed gets frames of the second sort. -/
theorem Stmt.alike_renameScope {s : Stmt} {r : Region} (hregion : s.region? = some r)
    (hids : ∀ id ∈ s.ids, id ∈ ids) (hy : y ∉ s.names) (hr : s.Regular)
    (hf : ∀ t ∈ r.body, t.NotFunction x) :
    Stmt.Alike (.respelling ids table x y) .plain s (s.renameScope table x y) := by
  match s with
  | .block body =>
    cases hregion
    refine .block true ?_
    rw [Outlook.enter_true_plain]
    exact Stmt.allAlike_rename 0 hids hy hr fun _ => hf
  | .function name params body =>
    cases hregion
    simp only [Stmt.names, List.mem_append, List.mem_cons, List.mem_map, not_or] at hy
    refine .function true (Likeness.respelling_token name) ?_ ?_ ?_
    · exact ⟨Ne.symm hy.1.1, by simp [Outlook.plain]⟩
    · refine List.forall₂_map_right_iff.mpr (List.forall₂_same.mpr fun t ht => ?_)
      exact Likeness.respelling_changed fun h => hy.1.2 ⟨t, ht, h⟩
    · rw [Outlook.enter_true_plain]
      exact Stmt.allAlike_rename 0 hids hy.2 hr fun _ => hf

end Likeness

end TreeWalk
