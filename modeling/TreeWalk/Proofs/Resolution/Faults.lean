import TreeWalk.Proofs.Syntax.Position

/-! What the resolver reports, told from the tree alone: a part is at fault or not because of the
parts around it, and the reports are the faults in the order of the tree. -/

namespace TreeWalk

namespace Expr

mutual

/-- The names of the variables that an expression reads, in the order of the text. -/
def reads : Expr → List Token
  | literal _ => []
  | grouping inner => reads inner
  | unary _ right => reads right
  | binary left _ right => reads left ++ reads right
  | logical left _ right => reads left ++ reads right
  | var _ name => [name]
  | assign _ _ value => reads value
  | call callee _ arguments => reads callee ++ readsOfAll arguments

def readsOfAll : List Expr → List Token
  | [] => []
  | e :: es => reads e ++ readsOfAll es

end

def readsOfOption (e : Option Expr) : List Token :=
  (e.map reads).getD []

theorem reads_foldr_unary (operators : List Token) (operand : Expr) :
    (operators.foldr .unary operand).reads = operand.reads := by
  induction operators with
  | nil => rfl
  | cons operator operators ih => exact ih

theorem readsOfAll_append (es es' : List Expr) :
    readsOfAll (es ++ es') = readsOfAll es ++ readsOfAll es' := by
  induction es with
  | nil => rfl
  | cons e es ih => rw [List.cons_append, readsOfAll, readsOfAll, ih, List.append_assoc]

end Expr

/-- The reads of a variable in an expression, each one reported. -/
def Token.misreads (names : List Token) (reads : Token → Bool) : List Diagnostic :=
  (names.filter reads).map (.scoping · .ownInitializer)

namespace Stmt

mutual

/-- The reports on a statement, in the order of the text. Whether the statement lies in the body of
a function, and whether it stands in a scope, is all that matters of its place. -/
def faults (inFunction inScope : Bool) : Stmt → List Diagnostic
  | expression _ => []
  | print _ => []
  | declare name initializer =>
    Token.misreads (Expr.readsOfOption initializer) fun t => inScope && t.lexeme == name.lexeme
  | block body => faultsOfAll inFunction true body
  | ifThen _ thenBranch => faults inFunction inScope thenBranch
  | ifElse _ thenBranch elseBranch =>
    faults inFunction inScope thenBranch ++ faults inFunction inScope elseBranch
  | whileLoop _ body => faults inFunction inScope body
  | function _ _ body => faultsOfAll true true body
  | returnFrom keyword _ => if inFunction then [] else [.scoping keyword .topLevelReturn]

def faultsOfAll (inFunction inScope : Bool) : List Stmt → List Diagnostic
  | [] => []
  | s :: ss => faults inFunction inScope s ++ faultsOfAll inFunction inScope ss

end

end Stmt

section Findings

variable {scopes : List Scope}

theorem Token.misreads_append (names names' : List Token) (reads : Token → Bool) :
    misreads (names ++ names') reads = misreads names reads ++ misreads names' reads := by
  rw [misreads, List.filter_append, List.map_append]
  rfl

theorem Token.misreads_eq_nil {names : List Token} {reads : Token → Bool}
    (h : ∀ t, reads t = false) : misreads names reads = [] := by
  rw [misreads, List.filter_eq_nil_iff.mpr fun t _ => by rw [h t]; exact Bool.false_ne_true]
  rfl

mutual

/-- Only a read is reported, and only while its name is not ready. -/
theorem Expr.errors_findings (scopes : List Scope) (e : Expr) :
    (e.findings scopes).filterMap Finding.error? =
      Token.misreads e.reads fun t => Scope.inInitializer scopes t.lexeme := by
  match e with
  | .literal _ => rfl
  | .grouping inner => exact inner.errors_findings scopes
  | .unary _ right => exact right.errors_findings scopes
  | .binary left _ right | .logical left _ right =>
    rw [findings, reads, List.filterMap_append, Token.misreads_append, left.errors_findings scopes,
      right.errors_findings scopes]
  | .var id name =>
    rw [findings, reads, Token.misreads, List.filter_singleton]
    split
    · next h => rw [h]; rfl
    · next h => rw [Bool.eq_false_iff.mpr h]; rfl
  | .assign id name value =>
    rw [findings, List.filterMap_append, value.errors_findings scopes]
    exact List.append_nil _
  | .call callee _ arguments =>
    rw [findings, reads, List.filterMap_append, Token.misreads_append,
      callee.errors_findings scopes, Expr.errors_findingsOfAll scopes arguments]

theorem Expr.errors_findingsOfAll (scopes : List Scope) (es : List Expr) :
    (Expr.findingsOfAll scopes es).filterMap Finding.error? =
      Token.misreads (Expr.readsOfAll es) fun t => Scope.inInitializer scopes t.lexeme := by
  match es with
  | [] => rfl
  | e :: es =>
    rw [findingsOfAll, readsOfAll, List.filterMap_append, Token.misreads_append,
      e.errors_findings scopes, Expr.errors_findingsOfAll scopes es]

end

theorem Stmt.errors_findingsOfOption (scopes : List Scope) (e : Option Expr) :
    (findingsOfOption scopes e).filterMap Finding.error? =
      Token.misreads (Expr.readsOfOption e) fun t => Scope.inInitializer scopes t.lexeme := by
  cases e with
  | none => rfl
  | some e => exact e.errors_findings scopes

/-- Where every name is ready, no read is reported. -/
theorem Scope.Settled.inInitializer (h : Settled scopes) (name : String) :
    Scope.inInitializer scopes name = false := by
  rw [Scope.inInitializer, decide_eq_false_iff_not]
  cases scopes with
  | nil => exact fun h => nomatch h
  | cons scope outer => exact h scope List.mem_cons_self name

/-- While a name is declared in a scope, it alone is not ready. -/
theorem Scope.Settled.inInitializer_note (h : Settled scopes) (name : Token) (other : String) :
    Scope.inInitializer (note name false scopes) other =
      (!scopes.isEmpty && other == name.lexeme) := by
  cases scopes with
  | nil => rfl
  | cons scope outer =>
    have hready := h.inInitializer other
    simp only [Scope.inInitializer, note, List.head?_cons, Option.bind_some, List.lookup_cons,
      List.isEmpty_cons, Bool.not_false, Bool.true_and] at hready ⊢
    by_cases hsame : other = name.lexeme
    · simp [hsame]
    · have hne : (other == name.lexeme) = false := beq_false_of_ne hsame
      simp only [hne]
      exact hready

/-- No statement opens or closes a scope for those after it. -/
theorem Scope.isEmpty_note (name : Token) (ready : Bool) (scopes : List Scope) :
    (note name ready scopes).isEmpty = scopes.isEmpty := by
  cases scopes <;> rfl

/-- What is known between two statements of a list: that all names are ready, and whether there is a
scope. -/
structure Scope.Between (inScope : Bool) (scopes : List Scope) : Prop where
  settled : Settled scopes
  isEmpty : (!scopes.isEmpty) = inScope

namespace Scope.Between

variable {inScope : Bool}

theorem opened (h : Between inScope scopes) : Between true ([] :: scopes) :=
  ⟨h.settled.opened, rfl⟩

theorem entered (h : Between inScope scopes) (params : List Token) :
    Between true (Region.scopes params scopes) := by
  refine ⟨h.settled.opened.note_params params, ?_⟩
  rw [Region.scopes_eq]
  rfl

theorem note_ready (h : Between inScope scopes) (name : Token) :
    Between inScope (note name true scopes) :=
  ⟨h.settled.note_ready name, by rw [isEmpty_note, h.isEmpty]⟩

theorem note_declared (h : Between inScope scopes) (name : Token) :
    Between inScope (note name true (note name false scopes)) :=
  ⟨h.settled.note_declared name, by rw [isEmpty_note, isEmpty_note, h.isEmpty]⟩

theorem no_errors (h : Between inScope scopes) (e : Expr) :
    (e.findings scopes).filterMap Finding.error? = [] := by
  rw [e.errors_findings scopes]
  exact Token.misreads_eq_nil fun t => h.settled.inInitializer t.lexeme

end Scope.Between

mutual

/-- The walk over a statement reports its faults, and leaves the scopes fit for the next one. -/
theorem Stmt.errors_findings (s : Stmt) {inFunction inScope : Bool} {scopes : List Scope}
    (h : Scope.Between inScope scopes) :
    (s.findings inFunction scopes).2.filterMap Finding.error? = s.faults inFunction inScope ∧
      Scope.Between inScope (s.findings inFunction scopes).1 := by
  match s with
  | .expression e => exact ⟨h.no_errors e, h⟩
  | .print e => exact ⟨h.no_errors e, h⟩
  | .declare name initializer =>
    refine ⟨?_, h.note_declared name⟩
    simp only [findings, faults, errors_findingsOfOption, h.settled.inInitializer_note, h.isEmpty]
  | .block body => exact ⟨(Stmt.errors_findingsOfAll body h.opened).1, h⟩
  | .ifThen condition thenBranch =>
    obtain ⟨hthen, hafter⟩ := thenBranch.errors_findings h
    refine ⟨?_, hafter⟩
    simp only [findings, faults, List.filterMap_append, h.no_errors, hthen, List.nil_append]
  | .ifElse condition thenBranch elseBranch =>
    obtain ⟨hthen, hbetween⟩ := thenBranch.errors_findings h
    obtain ⟨helse, hafter⟩ := elseBranch.errors_findings hbetween
    refine ⟨?_, hafter⟩
    simp only [findings, faults, List.filterMap_append, h.no_errors, hthen, helse, List.nil_append]
  | .whileLoop condition body =>
    obtain ⟨hbody, hafter⟩ := body.errors_findings h
    refine ⟨?_, hafter⟩
    simp only [findings, faults, List.filterMap_append, h.no_errors, hbody, List.nil_append]
  | .function name params body =>
    have hinside := (h.note_ready name).entered params
    exact ⟨(Stmt.errors_findingsOfAll body hinside).1, h.note_ready name⟩
  | .returnFrom keyword value =>
    refine ⟨?_, h⟩
    have hvalue : (findingsOfOption scopes value).filterMap Finding.error? = [] := by
      cases value with
      | none => rfl
      | some e => exact h.no_errors e
    cases inFunction with
    | true => simp [findings, faults, hvalue]
    | false => simp [findings, faults, hvalue, Finding.error?]

theorem Stmt.errors_findingsOfAll (ss : List Stmt) {inFunction inScope : Bool}
    {scopes : List Scope} (h : Scope.Between inScope scopes) :
    (Stmt.findingsOfAll inFunction scopes ss).2.filterMap Finding.error? =
        Stmt.faultsOfAll inFunction inScope ss ∧
      Scope.Between inScope (Stmt.findingsOfAll inFunction scopes ss).1 := by
  match ss with
  | [] => exact ⟨rfl, h⟩
  | s :: ss =>
    obtain ⟨hfirst, hbetween⟩ := s.errors_findings h
    obtain ⟨hrest, hafter⟩ := Stmt.errors_findingsOfAll ss hbetween
    refine ⟨?_, hafter⟩
    simp only [findingsOfAll, faultsOfAll, List.filterMap_append, hfirst, hrest]

end

/-- Whatever the statements, their reports are their faults outside of functions and scopes. -/
theorem errors_resolve (program : List Stmt) :
    (resolve program).errors = Stmt.faultsOfAll false false program := by
  have hstart : Scope.Between false [] := ⟨fun scope hs => (nomatch hs), rfl⟩
  exact (Stmt.errors_findingsOfAll program hstart).1

end Findings

theorem Expr.sizeOf_lt_of_mem_children {e inner : Expr} (h : inner ∈ e.children) :
    sizeOf inner < sizeOf e := by
  cases e with
  | literal _ | var _ _ => cases h
  | grouping _ | unary _ _ | assign _ _ _ =>
    obtain rfl := List.mem_singleton.mp h
    simp only [Expr.grouping.sizeOf_spec, Expr.unary.sizeOf_spec, Expr.assign.sizeOf_spec]
    omega
  | binary _ _ _ | logical _ _ _ =>
    simp only [Expr.children, List.mem_cons, List.not_mem_nil, or_false] at h
    rcases h with rfl | rfl
    all_goals
      simp only [Expr.binary.sizeOf_spec, Expr.logical.sizeOf_spec]
      omega
  | call _ _ arguments =>
    rcases List.mem_cons.mp h with rfl | hargument
    · simp only [Expr.call.sizeOf_spec]
      omega
    · have := List.sizeOf_lt_of_mem hargument
      simp only [Expr.call.sizeOf_spec]
      omega

namespace Node

def isFunction : Node → Bool
  | stmt (.function _ _ _) => true
  | _ => false

/-- The name whose declaration directly in a block or body has an initializer that contains a part
of an expression. The parts around it are given, innermost first. -/
def declaring? : List Node → Option Token
  | expr _ :: around => declaring? around
  | stmt (.declare name _) :: outer =>
    if outer.head?.any (·.params?.isSome) then some name else none
  | _ => none

/-- Whether a name is read inside of its own declaration. -/
def misread (around : List Node) (t : Token) : Bool :=
  (declaring? around).any (t.lexeme == ·.lexeme)

/-- The report on a part, which the parts around it decide: on a `return` with no function around
it, and on a variable that is read inside of its own declaration. -/
def fault? (around : List Node) : Node → Option Diagnostic
  | stmt (.returnFrom keyword _) =>
    if around.any isFunction then none else some (.scoping keyword .topLevelReturn)
  | expr (.var _ name) =>
    if misread around name then some (.scoping name .ownInitializer) else none
  | _ => none

theorem sizeOf_lt_of_mem_children {n child : Node} (h : child ∈ n.children) :
    sizeOf child < sizeOf n := by
  have hstatements {ss : List Stmt} (hchild : child ∈ ss.map stmt) :
      sizeOf child < sizeOf ss + 1 := by
    obtain ⟨s, hs, rfl⟩ := List.mem_map.mp hchild
    have hlt := List.sizeOf_lt_of_mem hs
    simp only [stmt.sizeOf_spec]
    omega
  have hoption {e : Option Expr} (hchild : child ∈ e.toList.map expr) :
      sizeOf child < sizeOf e + 1 := by
    cases e with
    | none => cases hchild
    | some e =>
      obtain rfl := List.mem_singleton.mp hchild
      simp
  match n with
  | program statements =>
    have hlt := hstatements h
    simp only [program.sizeOf_spec]
    omega
  | stmt (.expression e) | stmt (.print e) =>
    obtain rfl := List.mem_singleton.mp h
    simp
  | stmt (.declare _ value) | stmt (.returnFrom _ value) =>
    have hlt := hoption h
    simp only [stmt.sizeOf_spec, Stmt.declare.sizeOf_spec, Stmt.returnFrom.sizeOf_spec]
    omega
  | stmt (.block body) | stmt (.function _ _ body) =>
    have hlt := hstatements h
    simp only [stmt.sizeOf_spec, Stmt.block.sizeOf_spec, Stmt.function.sizeOf_spec]
    omega
  | stmt (.ifThen _ _) | stmt (.ifElse _ _ _) | stmt (.whileLoop _ _) =>
    simp only [children, List.mem_cons, List.not_mem_nil, or_false] at h
    rcases h with rfl | rfl | rfl <;> simp <;> omega
  | expr e =>
    obtain ⟨inner, hinner, rfl⟩ := List.mem_map.mp h
    have hlt := Expr.sizeOf_lt_of_mem_children hinner
    simp only [expr.sizeOf_spec]
    omega

/-- A part and all parts in it, in the order of the tree, each after the parts around it, innermost
first. -/
def walk (around : List Node) (n : Node) : List (List Node × Node) :=
  (around, n) :: n.children.attach.flatMap fun child => walk (n :: around) child.1
  termination_by sizeOf n
  decreasing_by exact sizeOf_lt_of_mem_children child.2

/-- The faults in a part, in the order of the tree. -/
def faults (around : List Node) (n : Node) : List Diagnostic :=
  (n.walk around).filterMap fun visit => visit.2.fault? visit.1

theorem walk_eq (around : List Node) (n : Node) :
    n.walk around = (around, n) :: n.children.flatMap (walk (n :: around)) := by
  rw [walk]
  simp only [List.flatMap_subtype, List.unattach_attach]

theorem faults_eq (around : List Node) (n : Node) :
    n.faults around = (n.fault? around).toList ++ n.children.flatMap (faults (n :: around)) := by
  rw [faults, walk_eq, List.filterMap_cons, List.filterMap_flatMap]
  cases n.fault? around <;> rfl

end Node

section Walk

theorem Node.faults_of_children {around : List Node} {n : Node} (h : n.fault? around = none) :
    n.faults around = n.children.flatMap (faults (n :: around)) := by
  rw [faults_eq, h]
  rfl

mutual

/-- An expression hides nothing of what stands around it. -/
theorem Expr.node_faults (around : List Node) (e : Expr) :
    (Node.expr e).faults around = Token.misreads e.reads (Node.misread around) := by
  match e with
  | .literal _ => exact Node.faults_of_children rfl
  | .grouping inner =>
    rw [Node.faults_of_children rfl]
    exact (List.flatMap_singleton ..).trans (inner.node_faults _)
  | .unary _ right =>
    rw [Node.faults_of_children rfl]
    exact (List.flatMap_singleton ..).trans (right.node_faults _)
  | .assign _ _ value =>
    rw [Node.faults_of_children rfl]
    exact (List.flatMap_singleton ..).trans (value.node_faults _)
  | .binary left _ right | .logical left _ right =>
    rw [Node.faults_of_children rfl, reads, Token.misreads_append]
    change (Node.expr left).faults _ ++ ((Node.expr right).faults _ ++ []) = _
    rw [left.node_faults, right.node_faults, List.append_nil]
    rfl
  | .var id name =>
    rw [Node.faults_eq, Node.fault?, reads, Token.misreads, List.filter_singleton]
    cases Node.misread around name <;> rfl
  | .call callee paren arguments =>
    rw [Node.faults_of_children rfl, reads, Token.misreads_append]
    change (Node.expr callee).faults _ ++ (arguments.map Node.expr).flatMap _ = _
    rw [callee.node_faults, Expr.node_faultsOfAll]
    rfl

theorem Expr.node_faultsOfAll (around : List Node) (es : List Expr) :
    (es.map Node.expr).flatMap (Node.faults around) =
      Token.misreads (Expr.readsOfAll es) (Node.misread around) := by
  match es with
  | [] => rfl
  | e :: es =>
    rw [List.map_cons, List.flatMap_cons, e.node_faults around, Expr.node_faultsOfAll around es,
      readsOfAll, Token.misreads_append]

end

/-- Where no declaration contains an expression, no read in it is at fault. -/
theorem Expr.node_faults_eq_nil {around : List Node} (h : Node.declaring? around = none)
    (e : Expr) : (Node.expr e).faults around = [] := by
  rw [e.node_faults]
  exact Token.misreads_eq_nil fun t => by rw [Node.misread, h]; rfl

/-- The parts around a statement tell what matters of its place. A declaration stands in a scope
just if it stands directly in a block or body. -/
structure Stmt.Placed (s : Stmt) (around : List Node) (inFunction inScope : Bool) : Prop where
  function : around.any Node.isFunction = inFunction
  scope : s.isDeclaration = true → (around.head?.any (·.params?.isSome)) = inScope

/-- What is no declaration stands in the same place as the statement it is a part of. -/
theorem Stmt.Placed.branch {s inner : Stmt} {around : List Node} {inFunction inScope : Bool}
    (h : s.Placed around inFunction inScope) (hinner : inner.isDeclaration = false)
    (hs : (Node.stmt s).isFunction = false) :
    inner.Placed (.stmt s :: around) inFunction inScope := by
  refine ⟨?_, fun hd => ?_⟩
  · rw [List.any_cons, hs, Bool.false_or, h.function]
  · rw [hinner] at hd
    cases hd

mutual

theorem Stmt.node_faults {s : Stmt} (hs : s.Regular) {around : List Node}
    {inFunction inScope : Bool} (h : s.Placed around inFunction inScope) :
    (Node.stmt s).faults around = s.faults inFunction inScope := by
  match s with
  | .expression e =>
    rw [Node.faults_of_children rfl]
    exact (List.flatMap_singleton ..).trans (e.node_faults_eq_nil rfl)
  | .print e =>
    rw [Node.faults_of_children rfl]
    exact (List.flatMap_singleton ..).trans (e.node_faults_eq_nil rfl)
  | .declare name initializer =>
    rw [Node.faults_of_children rfl, faults]
    cases initializer with
    | none => rfl
    | some e =>
      refine (List.flatMap_singleton ..).trans ((e.node_faults _).trans ?_)
      refine congrArg (Token.misreads e.reads) (funext fun t => ?_)
      -- At the top level there is no scope to read one's own name from too early.
      rw [Node.misread, Node.declaring?, h.scope rfl]
      cases inScope <;> rfl
  | .block body =>
    rw [Node.faults_of_children rfl, faults]
    exact Stmt.node_faultsOfAll hs h.function rfl
  | .ifThen condition thenBranch =>
    rw [Node.faults_of_children rfl, faults]
    change (Node.expr condition).faults _ ++ ((Node.stmt thenBranch).faults _ ++ []) = _
    rw [condition.node_faults_eq_nil rfl, Stmt.node_faults hs.2 (h.branch hs.1 rfl),
      List.nil_append, List.append_nil]
  | .ifElse condition thenBranch elseBranch =>
    rw [Node.faults_of_children rfl, faults]
    change (Node.expr condition).faults _ ++ ((Node.stmt thenBranch).faults _ ++
      ((Node.stmt elseBranch).faults _ ++ [])) = _
    rw [condition.node_faults_eq_nil rfl, Stmt.node_faults hs.1.2 (h.branch hs.1.1 rfl),
      Stmt.node_faults hs.2.2 (h.branch hs.2.1 rfl), List.nil_append, List.append_nil]
  | .whileLoop condition body =>
    rw [Node.faults_of_children rfl, faults]
    change (Node.expr condition).faults _ ++ ((Node.stmt body).faults _ ++ []) = _
    rw [condition.node_faults_eq_nil rfl, Stmt.node_faults hs.2 (h.branch hs.1 rfl),
      List.nil_append, List.append_nil]
  | .function name params body =>
    rw [Node.faults_of_children rfl, faults]
    exact Stmt.node_faultsOfAll hs rfl rfl
  | .returnFrom keyword value =>
    have hvalue : (value.toList.map Node.expr).flatMap
        (Node.faults (.stmt (.returnFrom keyword value) :: around)) = [] := by
      cases value with
      | none => rfl
      | some e => exact (List.flatMap_singleton ..).trans (e.node_faults_eq_nil rfl)
    rw [Node.faults_eq, Node.fault?, h.function, faults, Node.children, hvalue, List.append_nil]
    cases inFunction <;> rfl

theorem Stmt.node_faultsOfAll {ss : List Stmt} (hs : Stmt.AllRegular ss) {around : List Node}
    {inFunction inScope : Bool} (hfunction : around.any Node.isFunction = inFunction)
    (hscope : (around.head?.any (·.params?.isSome)) = inScope) :
    (ss.map Node.stmt).flatMap (Node.faults around) = Stmt.faultsOfAll inFunction inScope ss := by
  match ss with
  | [] => rfl
  | s :: ss =>
    rw [List.map_cons, List.flatMap_cons, Stmt.node_faults hs.1 ⟨hfunction, fun _ => hscope⟩,
      Stmt.node_faultsOfAll hs.2 hfunction hscope, faultsOfAll]

end

/-- Where declarations stand only in lists, the reports on a program are the faults of its parts. -/
theorem errors_resolve_eq_faults {program : List Stmt} (h : Stmt.AllRegular program) :
    (resolve program).errors = (Node.program program).faults [] := by
  have hstart : (program.map Node.stmt).flatMap (Node.faults [.program program]) =
      Stmt.faultsOfAll false false program := Stmt.node_faultsOfAll h rfl rfl
  rw [errors_resolve, Node.faults_of_children rfl, ← hstart]
  rfl

end Walk

end TreeWalk
