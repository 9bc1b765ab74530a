import TreeWalk.Syntax.Basic

/-! What stands in trees: the identities of variables, the names, and the places of declarations;
and trees with other identities and
tokens. -/

namespace TreeWalk

namespace Expr

mutual

/-- The identities in an expression, in the order in which its variables are resolved. -/
def ids : Expr → List NodeId
  | literal _ => []
  | grouping inner => ids inner
  | unary _ right => ids right
  | binary left _ right => ids left ++ ids right
  | logical left _ right => ids left ++ ids right
  | var id _ => [id]
  | assign id _ value => ids value ++ [id]
  | call callee _ arguments => ids callee ++ idsOfAll arguments

def idsOfAll : List Expr → List NodeId
  | [] => []
  | e :: es => ids e ++ idsOfAll es

end

def idsOfOption (e : Option Expr) : List NodeId :=
  (e.map ids).getD []

theorem idsOfAll_append (es es' : List Expr) :
    idsOfAll (es ++ es') = idsOfAll es ++ idsOfAll es' := by
  induction es with
  | nil => rfl
  | cons e es ih => simp only [List.cons_append, idsOfAll, ih, List.append_assoc]

mutual

/-- The names of the variables in an expression. -/
def names : Expr → List String
  | literal _ => []
  | grouping inner => names inner
  | unary _ right => names right
  | binary left _ right => names left ++ names right
  | logical left _ right => names left ++ names right
  | var _ name => [name.lexeme]
  | assign _ name value => name.lexeme :: names value
  | call callee _ arguments => names callee ++ namesOfAll arguments

def namesOfAll : List Expr → List String
  | [] => []
  | e :: es => names e ++ namesOfAll es

end

def namesOfOption (e : Option Expr) : List String :=
  (e.map names).getD []

mutual

/-- The same expression with other identities and tokens. -/
def map (f : NodeId → NodeId) (g : Token → Token) : Expr → Expr
  | literal value => literal value
  | grouping inner => grouping (map f g inner)
  | unary operator right => unary (g operator) (map f g right)
  | binary left operator right => binary (map f g left) (g operator) (map f g right)
  | logical left operator right => logical (map f g left) (g operator) (map f g right)
  | var id name => var (f id) (g name)
  | assign id name value => assign (f id) (g name) (map f g value)
  | call callee paren arguments =>
    call (map f g callee) (g paren) (mapAll f g arguments)

def mapAll (f : NodeId → NodeId) (g : Token → Token) : List Expr → List Expr
  | [] => []
  | e :: es => map f g e :: mapAll f g es

end

theorem mapAll_eq_map (f : NodeId → NodeId) (g : Token → Token) (es : List Expr) :
    mapAll f g es = es.map (map f g) := by
  induction es with
  | nil => rfl
  | cons e es ih => rw [mapAll, ih, List.map_cons]

mutual

theorem map_id (e : Expr) : e.map id id = e := by
  match e with
  | literal _ | var _ _ => rfl
  | grouping inner => simp only [map, inner.map_id]
  | unary _ right => simp only [map, right.map_id, id_eq]
  | binary left _ right => simp only [map, left.map_id, right.map_id, id_eq]
  | logical left _ right => simp only [map, left.map_id, right.map_id, id_eq]
  | assign _ _ value => simp only [map, value.map_id, id_eq]
  | call callee _ arguments =>
    simp only [map, callee.map_id, mapAll_id arguments, id_eq]

theorem mapAll_id (es : List Expr) : mapAll id id es = es := by
  match es with
  | [] => rfl
  | e :: es => simp only [mapAll, e.map_id, mapAll_id es]

end

variable (f f' : NodeId → NodeId) (g g' : Token → Token)

mutual

theorem map_map (e : Expr) : (e.map f g).map f' g' = e.map (f' ∘ f) (g' ∘ g) := by
  match e with
  | literal _ | var _ _ => rfl
  | grouping inner => simp only [map, inner.map_map]
  | unary _ right => simp only [map, right.map_map, Function.comp_apply]
  | binary left _ right => simp only [map, left.map_map, right.map_map, Function.comp_apply]
  | logical left _ right => simp only [map, left.map_map, right.map_map, Function.comp_apply]
  | assign _ _ value => simp only [map, value.map_map, Function.comp_apply]
  | call callee _ arguments =>
    simp only [map, callee.map_map, mapAll_mapAll arguments, Function.comp_apply]

theorem mapAll_mapAll (es : List Expr) :
    mapAll f' g' (mapAll f g es) = mapAll (f' ∘ f) (g' ∘ g) es := by
  match es with
  | [] => rfl
  | e :: es => simp only [mapAll, e.map_map, mapAll_mapAll es]

end

end Expr

namespace Stmt

mutual

/-- The identities in a statement, in the order in which its variables are resolved. -/
def ids : Stmt → List NodeId
  | expression e => e.ids
  | print e => e.ids
  | declare _ initializer => Expr.idsOfOption initializer
  | block body => idsOfAll body
  | ifThen condition thenBranch => condition.ids ++ ids thenBranch
  | ifElse condition thenBranch elseBranch => condition.ids ++ ids thenBranch ++ ids elseBranch
  | whileLoop condition body => condition.ids ++ ids body
  | function _ _ body => idsOfAll body
  | returnFrom _ value => Expr.idsOfOption value

def idsOfAll : List Stmt → List NodeId
  | [] => []
  | s :: ss => ids s ++ idsOfAll ss

end

def idsOfOption (s : Option Stmt) : List NodeId :=
  (s.map ids).getD []

mutual

/-- The names of the variables, functions and parameters in a statement. -/
def names : Stmt → List String
  | expression e => e.names
  | print e => e.names
  | declare name initializer => name.lexeme :: Expr.namesOfOption initializer
  | block body => namesOfAll body
  | ifThen condition thenBranch => condition.names ++ names thenBranch
  | ifElse condition thenBranch elseBranch =>
    condition.names ++ names thenBranch ++ names elseBranch
  | whileLoop condition body => condition.names ++ names body
  | function name params body => name.lexeme :: params.map Token.lexeme ++ namesOfAll body
  | returnFrom _ value => Expr.namesOfOption value

def namesOfAll : List Stmt → List String
  | [] => []
  | s :: ss => names s ++ namesOfAll ss

end

mutual

/-- The same statement with other identities and tokens. -/
def map (f : NodeId → NodeId) (g : Token → Token) : Stmt → Stmt
  | expression e => expression (e.map f g)
  | print e => print (e.map f g)
  | declare name initializer => declare (g name) (initializer.map (Expr.map f g))
  | block body => block (mapAll f g body)
  | ifThen condition thenBranch => ifThen (condition.map f g) (map f g thenBranch)
  | ifElse condition thenBranch elseBranch =>
    ifElse (condition.map f g) (map f g thenBranch) (map f g elseBranch)
  | whileLoop condition body => whileLoop (condition.map f g) (map f g body)
  | function name params body => function (g name) (params.map g) (mapAll f g body)
  | returnFrom keyword value => returnFrom (g keyword) (value.map (Expr.map f g))

def mapAll (f : NodeId → NodeId) (g : Token → Token) : List Stmt → List Stmt
  | [] => []
  | s :: ss => map f g s :: mapAll f g ss

end

theorem mapAll_eq_map (f : NodeId → NodeId) (g : Token → Token) (ss : List Stmt) :
    mapAll f g ss = ss.map (map f g) := by
  induction ss with
  | nil => rfl
  | cons s ss ih => rw [mapAll, ih, List.map_cons]

theorem map_forLoop (f : NodeId → NodeId) (g : Token → Token) (initializer : Option Stmt)
    (condition increment : Option Expr) (body : Stmt) :
    (forLoop initializer condition increment body).map f g =
      forLoop (initializer.map (map f g)) (condition.map (Expr.map f g))
        (increment.map (Expr.map f g)) (body.map f g) := by
  cases initializer <;> cases condition <;> cases increment <;> rfl

mutual

theorem map_id (s : Stmt) : s.map id id = s := by
  have hoption (e : Option Expr) : e.map (Expr.map id id) = e := by
    cases e with
    | none => rfl
    | some e => rw [Option.map_some, e.map_id]
  match s with
  | expression e | print e => simp only [map, e.map_id]
  | declare _ initializer => simp only [map, hoption, id_eq]
  | block body => simp only [map, mapAll_id body]
  | ifThen condition thenBranch =>
    simp only [map, condition.map_id, thenBranch.map_id]
  | ifElse condition thenBranch elseBranch =>
    simp only [map, condition.map_id, thenBranch.map_id,
      elseBranch.map_id]
  | whileLoop condition body => simp only [map, condition.map_id, body.map_id]
  | function _ params body =>
    simp only [map, List.map_id, mapAll_id body, id_eq]
  | returnFrom _ value => simp only [map, hoption, id_eq]

theorem mapAll_id (ss : List Stmt) : mapAll id id ss = ss := by
  match ss with
  | [] => rfl
  | s :: ss => simp only [mapAll, s.map_id, mapAll_id ss]

end

section Composition

variable (f f' : NodeId → NodeId) (g g' : Token → Token)

mutual

theorem map_map (s : Stmt) : (s.map f g).map f' g' = s.map (f' ∘ f) (g' ∘ g) := by
  have hoption (e : Option Expr) :
      (e.map (Expr.map f g)).map (Expr.map f' g') = e.map (Expr.map (f' ∘ f) (g' ∘ g)) := by
    cases e with
    | none => rfl
    | some e => simp only [Option.map_some, e.map_map]
  match s with
  | expression e | print e => simp only [map, e.map_map]
  | declare _ initializer => simp only [map, hoption, Function.comp_apply]
  | block body => simp only [map, mapAll_mapAll body]
  | ifThen condition thenBranch =>
    simp only [map, condition.map_map, thenBranch.map_map]
  | ifElse condition thenBranch elseBranch =>
    simp only [map, condition.map_map, thenBranch.map_map, elseBranch.map_map]
  | whileLoop condition body => simp only [map, condition.map_map, body.map_map]
  | function _ params body =>
    simp only [map, List.map_map, mapAll_mapAll body, Function.comp_apply]
  | returnFrom _ value => simp only [map, hoption, Function.comp_apply]

theorem mapAll_mapAll (ss : List Stmt) :
    mapAll f' g' (mapAll f g ss) = mapAll (f' ∘ f) (g' ∘ g) ss := by
  match ss with
  | [] => rfl
  | s :: ss => simp only [mapAll, s.map_map, mapAll_mapAll ss]

end

end Composition

/-- The increment of a loop comes before its body in the text and after it in the tree. -/
theorem ids_forLoop (initializer : Option Stmt) (condition increment : Option Expr) (body : Stmt) :
    (forLoop initializer condition increment body).ids.Perm
      (idsOfOption initializer ++ (Expr.idsOfOption condition ++
        (Expr.idsOfOption increment ++ body.ids))) := by
  have hcondition : (condition.getD (.literal (.bool true))).ids = Expr.idsOfOption condition := by
    cases condition <;> rfl
  cases initializer <;> cases increment <;>
    simp only [forLoop, ids, idsOfAll, hcondition, idsOfOption, Expr.idsOfOption, Option.map_some,
      Option.map_none, Option.getD_some, Option.getD_none, List.append_nil, List.nil_append,
      List.Perm.refl]
  · exact List.perm_append_comm.append_left _
  · exact (List.perm_append_comm.append_left _).append_left _

/-- Whether a statement may stand only in a list. -/
def isDeclaration : Stmt → Bool
  | declare _ _ => true
  | function _ _ _ => true
  | _ => false

mutual

/-- No branch and no body of a loop is a declaration. -/
def Regular : Stmt → Prop
  | block body => AllRegular body
  | ifThen _ thenBranch => thenBranch.isDeclaration = false ∧ Regular thenBranch
  | ifElse _ thenBranch elseBranch =>
    (thenBranch.isDeclaration = false ∧ Regular thenBranch) ∧
      elseBranch.isDeclaration = false ∧ Regular elseBranch
  | whileLoop _ body => body.isDeclaration = false ∧ Regular body
  | function _ _ body => AllRegular body
  | expression _ | print _ | declare _ _ | returnFrom _ _ => True

def AllRegular : List Stmt → Prop
  | [] => True
  | s :: ss => Regular s ∧ AllRegular ss

end

theorem isDeclaration_map (f : NodeId → NodeId) (g : Token → Token) (s : Stmt) :
    (s.map f g).isDeclaration = s.isDeclaration := by
  cases s <;> rfl

mutual

theorem regular_map {f : NodeId → NodeId} {g : Token → Token} {s : Stmt} (h : s.Regular) :
    (s.map f g).Regular := by
  match s with
  | expression _ | print _ | declare _ _ | returnFrom _ _ => exact trivial
  | block _ | function _ _ _ => exact allRegular_mapAll h
  | ifThen _ t | whileLoop _ t => exact ⟨by rw [isDeclaration_map, h.1], regular_map h.2⟩
  | ifElse _ t u =>
    exact ⟨⟨by rw [isDeclaration_map, h.1.1], regular_map h.1.2⟩,
      by rw [isDeclaration_map, h.2.1], regular_map h.2.2⟩

theorem allRegular_mapAll {f : NodeId → NodeId} {g : Token → Token} {ss : List Stmt}
    (h : AllRegular ss) : AllRegular (mapAll f g ss) := by
  match ss with
  | [] => exact trivial
  | _ :: _ => exact ⟨regular_map h.1, allRegular_mapAll h.2⟩

end

end Stmt

end TreeWalk
