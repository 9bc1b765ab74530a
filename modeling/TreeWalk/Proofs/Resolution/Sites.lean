import TreeWalk.Program
import TreeWalk.Proofs.Resolution.Table

/-! Where expressions and statements stand in a program: inside which parts that have scopes of
their own. -/

namespace TreeWalk

namespace Expr

mutual

/-- An expression and all expressions inside it. -/
def parts : Expr → List Expr
  | literal value => [literal value]
  | grouping inner => grouping inner :: parts inner
  | unary operator right => unary operator right :: parts right
  | binary left operator right => binary left operator right :: (parts left ++ parts right)
  | logical left operator right => logical left operator right :: (parts left ++ parts right)
  | var id name => [var id name]
  | assign id name value => assign id name value :: parts value
  | call callee paren arguments =>
    call callee paren arguments :: (parts callee ++ partsOfAll arguments)

def partsOfAll : List Expr → List Expr
  | [] => []
  | e :: es => parts e ++ partsOfAll es

end

def partsOfOption (e : Option Expr) : List Expr :=
  (e.map parts).getD []

theorem mem_parts_self (e : Expr) : e ∈ e.parts := by
  cases e <;> simp [parts]

/-- The identity and the name of a variable that is read or written. -/
def mention? : Expr → Option (NodeId × Token)
  | var id name => some (id, name)
  | assign id name _ => some (id, name)
  | _ => none

theorem reference_of_mention {e : Expr} {id : NodeId} {name : Token}
    (h : e.mention? = some (id, name)) (scopes : List Scope) :
    ∃ access, .reference ⟨access, id, name, Scope.hops? scopes name.lexeme⟩ ∈
      e.findings scopes := by
  cases e with
  | var id name =>
    cases h
    refine ⟨.read, ?_⟩
    rw [findings]
    split <;> simp
  | assign id name value =>
    cases h
    exact ⟨.write, List.mem_append_right _ (List.mem_singleton_self _)⟩
  | _ => cases h

end Expr

namespace Stmt

/-- The name that a statement declares in the scope it stands in. -/
def declared? : Stmt → Option Token
  | declare name _ => some name
  | function name _ _ => some name
  | _ => none

theorem declared?_eq_none {s : Stmt} (h : s.isDeclaration = false) : s.declared? = none := by
  cases s <;> first | rfl | cases h

mutual

/-- The expressions in a statement, each with the parts around it that have scopes, innermost
first. The statement itself stands inside `regions`. -/
def sites (regions : List Region) : Stmt → List (List Region × Expr)
  | expression e => e.parts.map (regions, ·)
  | print e => e.parts.map (regions, ·)
  | declare _ initializer => (Expr.partsOfOption initializer).map (regions, ·)
  | block body => sitesOfAll (⟨[], body⟩ :: regions) body
  | ifThen condition thenBranch => condition.parts.map (regions, ·) ++ sites regions thenBranch
  | ifElse condition thenBranch elseBranch =>
    condition.parts.map (regions, ·) ++ (sites regions thenBranch ++ sites regions elseBranch)
  | whileLoop condition body => condition.parts.map (regions, ·) ++ sites regions body
  | function _ params body => sitesOfAll (⟨params, body⟩ :: regions) body
  | returnFrom _ value => (Expr.partsOfOption value).map (regions, ·)

def sitesOfAll (regions : List Region) : List Stmt → List (List Region × Expr)
  | [] => []
  | s :: ss => sites regions s ++ sitesOfAll regions ss

end

mutual

/-- A statement and all statements inside it, each with the parts around it that have scopes,
innermost first. The statement itself stands inside `regions`. -/
def places (regions : List Region) : Stmt → List (List Region × Stmt)
  | expression e => [(regions, expression e)]
  | print e => [(regions, print e)]
  | declare name initializer => [(regions, declare name initializer)]
  | block body => (regions, block body) :: placesOfAll (⟨[], body⟩ :: regions) body
  | ifThen condition thenBranch =>
    (regions, ifThen condition thenBranch) :: places regions thenBranch
  | ifElse condition thenBranch elseBranch =>
    (regions, ifElse condition thenBranch elseBranch) ::
      (places regions thenBranch ++ places regions elseBranch)
  | whileLoop condition body => (regions, whileLoop condition body) :: places regions body
  | function name params body =>
    (regions, function name params body) :: placesOfAll (⟨params, body⟩ :: regions) body
  | returnFrom keyword value => [(regions, returnFrom keyword value)]

def placesOfAll (regions : List Region) : List Stmt → List (List Region × Stmt)
  | [] => []
  | s :: ss => places regions s ++ placesOfAll regions ss

end

theorem mem_places_self (regions : List Region) (s : Stmt) : (regions, s) ∈ s.places regions := by
  cases s <;> simp [places]

end Stmt

namespace Stmt

theorem findings_ifElse (inFunction : Bool) (scopes : List Scope) (condition : Expr)
    (thenBranch elseBranch : Stmt) :
    (ifElse condition thenBranch elseBranch).findings inFunction scopes =
      ((elseBranch.findings inFunction (thenBranch.findings inFunction scopes).1).1,
        condition.findings scopes ++ (thenBranch.findings inFunction scopes).2 ++
          (elseBranch.findings inFunction (thenBranch.findings inFunction scopes).1).2) :=
  rfl

/-- What is no declaration leaves the scopes as they are. -/
theorem scopes_findings {s : Stmt} (hs : s.isDeclaration = false) (hr : s.Regular)
    (inFunction : Bool) (scopes : List Scope) : (s.findings inFunction scopes).1 = scopes := by
  match s with
  | expression _ | print _ | block _ | returnFrom _ _ => rfl
  | declare _ _ | function _ _ _ => cases hs
  | ifThen _ thenBranch => exact scopes_findings hr.1 hr.2 inFunction scopes
  | ifElse _ thenBranch elseBranch =>
    have hthen := scopes_findings hr.1.1 hr.1.2 inFunction scopes
    have helse := scopes_findings hr.2.1 hr.2.2 inFunction scopes
    rw [findings_ifElse, hthen]
    exact helse
  | whileLoop _ body => exact scopes_findings hr.1 hr.2 inFunction scopes

end Stmt

theorem Scope.mem_of_lookup {scope : Scope} {name : String} {ready : Bool}
    (h : scope.lookup name = some ready) : (name, ready) ∈ scope := by
  obtain ⟨before, after, rfl, -⟩ := List.lookup_eq_some_iff.mp h
  exact List.mem_append_right _ List.mem_cons_self

theorem Scope.hops_lt {scopes : List Scope} {name : String} {d : Nat}
    (h : Scope.hops? scopes name = some d) : d < scopes.length :=
  (List.findIdx?_eq_some_iff_getElem.mp h).1

/-- A name is found at the latest in a scope that has it. -/
theorem Scope.hops_le {scopes : List Scope} {k : Nat} {scope : Scope} {name : String}
    (hscope : scopes[k]? = some scope) (hname : (scope.lookup name).isSome = true) :
    ∃ d ≤ k, Scope.hops? scopes name = some d := by
  induction scopes generalizing k with
  | nil => cases hscope
  | cons first scopes ih =>
    rw [Scope.hops?, List.findIdx?_cons]
    by_cases hfirst : (first.lookup name).isSome = true
    · exact ⟨0, Nat.zero_le k, if_pos hfirst⟩
    · cases k with
      | zero =>
        cases hscope
        exact absurd hname hfirst
      | succ k =>
        obtain ⟨d, hdk, hd⟩ := ih hscope
        refine ⟨d + 1, Nat.succ_le_succ hdk, ?_⟩
        rw [Scope.hops?] at hd
        rw [if_neg hfirst, hd]
        rfl

/-- Every name in the scopes is ready to read. -/
def Scope.Settled (scopes : List Scope) : Prop :=
  ∀ scope ∈ scopes, ∀ name, scope.lookup name ≠ some false

namespace Scope.Settled

variable {scopes : List Scope}

theorem opened (h : Settled scopes) : Settled ([] :: scopes) := by
  intro scope hs name
  rcases List.mem_cons.mp hs with rfl | hs
  · simp
  · exact h scope hs name

theorem note_ready (h : Settled scopes) (name : Token) : Settled (note name true scopes) := by
  cases scopes with
  | nil => exact h
  | cons scope outer =>
    intro scope' hs other
    rcases List.mem_cons.mp hs with rfl | hs
    · rw [List.lookup_cons]
      split
      · simp
      · exact h scope List.mem_cons_self other
    · exact h scope' (List.mem_cons_of_mem _ hs) other

/-- A declaration is settled after its initializer. -/
theorem note_declared (h : Settled scopes) (name : Token) :
    Settled (note name true (note name false scopes)) := by
  cases scopes with
  | nil => exact h
  | cons scope outer =>
    intro scope' hs other
    rcases List.mem_cons.mp hs with rfl | hs
    · rw [List.lookup_cons, List.lookup_cons]
      split
      · simp
      · exact h scope List.mem_cons_self other
    · exact h scope' (List.mem_cons_of_mem _ hs) other

theorem note_params (h : Settled scopes) (params : List Token) :
    Settled (params.foldl (fun scopes p => note p true scopes) scopes) := by
  induction params generalizing scopes with
  | nil => exact h
  | cons name params ih => exact ih (h.note_ready name)

/-- Where a declaration is in the middle of its initializer, the scopes further out are settled. -/
theorem tail_note (h : Settled scopes) (name : Token) (ready : Bool) :
    Settled (note name ready scopes).tail := by
  cases scopes with
  | nil => exact h
  | cons scope outer => exact fun scope' hs => h scope' (List.mem_cons_of_mem _ hs)

theorem tail (h : Settled scopes) : Settled scopes.tail :=
  fun scope hs => h scope (List.mem_of_mem_tail hs)

theorem findings (h : Settled scopes) {s : Stmt} (hs : s.Regular) (inFunction : Bool) :
    Settled (s.findings inFunction scopes).1 := by
  cases hd : s.isDeclaration with
  | false =>
    rw [Stmt.scopes_findings hd hs]
    exact h
  | true =>
    cases s with
    | declare name _ => exact h.note_declared name
    | function name _ _ => exact h.note_ready name
    | _ => cases hd

end Scope.Settled

namespace Region

/-- The scopes inside the body of a function, where those around it are `scopes`. -/
def scopes (params : List Token) (outer : List Scope) : List Scope :=
  params.foldl (fun scopes p => Scope.note p true scopes) ([] :: outer)

theorem scopes_eq (params : List Token) (outer : List Scope) :
    scopes params outer = (params.reverse.map fun t => (t.lexeme, true)) :: outer := by
  have hfold (scope : Scope) : params.foldl (fun scopes p => Scope.note p true scopes)
      (scope :: outer) = ((params.reverse.map fun t => (t.lexeme, true)) ++ scope) :: outer := by
    induction params generalizing scope with
    | nil => rfl
    | cons t params ih =>
      rw [List.foldl_cons, Scope.note, ih]
      simp
  rw [scopes, hfold, List.append_nil]

/-- Whether a name is a parameter or is declared directly in the body. -/
def Declares (r : Region) (name : String) : Prop :=
  ∃ t ∈ r.params ++ r.body.filterMap Stmt.declared?, t.lexeme = name

/-- Whether an expression is part of the initializer in the first declaration of a name. -/
def Initializes (r : Region) (name : String) (e : Expr) : Prop :=
  ∃ before t initializer after, r.body = before ++ .declare t (some initializer) :: after ∧
    t.lexeme = name ∧ e ∈ initializer.parts ∧
      ∀ t' ∈ r.params ++ before.filterMap Stmt.declared?, t'.lexeme ≠ name

/-- Some statements are the rest of the body, and whatever is declared before them is ready in the
innermost scope. -/
def Continues (r : Region) (scopes : List Scope) (ss : List Stmt) : Prop :=
  ∃ before, r.body = before ++ ss ∧
    ∀ t ∈ r.params ++ before.filterMap Stmt.declared?, ∀ scope ∈ scopes.head?,
      (t.lexeme, true) ∈ scope

theorem Continues.declares {r : Region} {scopes : List Scope} {ss : List Stmt}
    (h : r.Continues scopes ss) {t : Token} (ht : t ∈ ss.filterMap Stmt.declared?) :
    r.Declares t.lexeme := by
  obtain ⟨before, hbody, -⟩ := h
  refine ⟨t, List.mem_append_right _ ?_, rfl⟩
  rw [hbody, List.filterMap_append]
  exact List.mem_append_right _ ht

/-- The inside of a block goes on from its start, where nothing is declared before. -/
theorem continues_block (body : List Stmt) (scopes : List Scope) :
    Continues ⟨[], body⟩ scopes body :=
  ⟨[], rfl, fun t ht => by cases ht⟩

/-- At the start of the body of a function its parameters are ready. -/
theorem continues_function (params : List Token) (body : List Stmt) (outer : List Scope) :
    Continues ⟨params, body⟩ (scopes params outer) body := by
  refine ⟨[], rfl, fun t ht scope hscope => ?_⟩
  rw [List.filterMap_nil, List.append_nil] at ht
  rw [scopes_eq, List.head?_cons, Option.mem_some_iff] at hscope
  subst hscope
  exact List.mem_map.mpr ⟨t, List.mem_reverse.mpr ht, rfl⟩

/-- After a statement, what it declares is ready along with what was declared before. -/
theorem Continues.next {r : Region} {scopes : List Scope} {s : Stmt} {ss : List Stmt}
    (h : r.Continues scopes (s :: ss)) (hs : s.Regular) (inFunction : Bool) :
    r.Continues (s.findings inFunction scopes).1 ss := by
  obtain ⟨before, hbody, hready⟩ := h
  refine ⟨before ++ [s], by rw [hbody, List.append_assoc, List.singleton_append], ?_⟩
  intro t ht scope hscope
  rw [List.filterMap_append, ← List.append_assoc, List.mem_append] at ht
  have hsplit : (∃ inner ∈ scopes.head?, (∀ entry ∈ inner, entry ∈ scope) ∧
      ∀ name ∈ s.declared?, (name.lexeme, true) ∈ scope) := by
    cases hd : s.isDeclaration with
    | false =>
      rw [Stmt.scopes_findings hd hs] at hscope
      refine ⟨scope, hscope, fun _ he => he, fun name hname => ?_⟩
      rw [Stmt.declared?_eq_none hd] at hname
      cases hname
    | true =>
      cases scopes with
      | nil =>
        rw [Stmt.scopes_findings_nil] at hscope
        cases hscope
      | cons inner outer =>
        cases s with
        | declare name _ | function name _ _ =>
          cases hscope
          refine ⟨inner, rfl, fun entry he => by simp [he], fun name' hname => ?_⟩
          cases hname
          exact List.mem_cons_self
        | _ => cases hd
  obtain ⟨inner, hinner, hkept, hnew⟩ := hsplit
  rcases ht with ht | ht
  · exact hkept _ (hready t ht inner hinner)
  · obtain ⟨s', hs', hname⟩ := List.mem_filterMap.mp ht
    rw [List.mem_singleton] at hs'
    exact hnew t (hs' ▸ hname)

end Region

namespace Program

def ids (p : Program) : List NodeId :=
  Stmt.idsOfAll p.statements

def sites (p : Program) : List (List Region × Expr) :=
  Stmt.sitesOfAll [] p.statements

def places (p : Program) : List (List Region × Stmt) :=
  Stmt.placesOfAll [] p.statements

/-- A finding that the table of a program records, and no error. -/
def Records (p : Program) : Finding → Prop
  | .reference r => r.id ∈ p.ids ∧ p.resolution.hops[r.id]? = r.hops
  | .error _ => False

/-- Where a name is declared and was never ready, the expression is part of its initializer. -/
def Initializes (regions : List Region) (scopes : List Scope) (e : Expr) : Prop :=
  ∀ scope ∈ scopes.head?, ∀ name, scope.lookup name = some false → (name, true) ∉ scope →
    ∀ r ∈ regions.head?, r.Initializes name e

/-- Where all names are ready, there is no initializer to be part of. -/
theorem initializes_of_settled {regions : List Region} {scopes : List Scope}
    (h : Scope.Settled scopes) (e : Expr) : Initializes regions scopes e :=
  fun scope hscope name hname => absurd hname (h scope (List.mem_of_mem_head? hscope) name)

/-- An expression of a program stands inside `regions`, where `scopes` are visible. -/
structure HasExpr (p : Program) (regions : List Region) (scopes : List Scope) (e : Expr) :
    Prop where
  settled : Scope.Settled scopes.tail
  found : ∀ f ∈ e.findings scopes, p.Records f
  sites : ∀ e' ∈ e.parts, (regions, e') ∈ p.sites
  initializes : ∀ e' ∈ e.parts, Initializes regions scopes e'

/-- A statement of a program stands inside `regions`, where `scopes` are visible before it. -/
structure HasStmt (p : Program) (regions : List Region) (inFunction : Bool) (scopes : List Scope)
    (s : Stmt) : Prop where
  settled : Scope.Settled scopes
  regular : s.Regular
  found : ∀ f ∈ (s.findings inFunction scopes).2, p.Records f
  sites : ∀ site ∈ s.sites regions, site ∈ p.sites
  places : ∀ place ∈ s.places regions, place ∈ p.places
  continues : s.isDeclaration = true → ∀ r ∈ regions.head?, ∃ ss, r.Continues scopes (s :: ss)

/-- Statements of a program stand in a row inside `regions`. -/
structure HasBody (p : Program) (regions : List Region) (inFunction : Bool) (scopes : List Scope)
    (ss : List Stmt) : Prop where
  settled : Scope.Settled scopes
  regular : Stmt.AllRegular ss
  found : ∀ f ∈ (Stmt.findingsOfAll inFunction scopes ss).2, p.Records f
  sites : ∀ site ∈ Stmt.sitesOfAll regions ss, site ∈ p.sites
  places : ∀ place ∈ Stmt.placesOfAll regions ss, place ∈ p.places
  continues : ∀ r ∈ regions.head?, r.Continues scopes ss

variable {p : Program} {regions : List Region} {inFunction : Bool} {scopes : List Scope}

namespace HasExpr

theorem of_parts {e inner : Expr} (h : p.HasExpr regions scopes e)
    (hfound : ∀ f ∈ inner.findings scopes, f ∈ e.findings scopes)
    (hparts : ∀ e' ∈ inner.parts, e' ∈ e.parts) : p.HasExpr regions scopes inner :=
  ⟨h.settled, fun f hf => h.found f (hfound f hf), fun e' he => h.sites e' (hparts e' he),
    fun e' he => h.initializes e' (hparts e' he)⟩

theorem of_grouping {inner : Expr} (h : p.HasExpr regions scopes (.grouping inner)) :
    p.HasExpr regions scopes inner :=
  h.of_parts (fun _ hf => hf) fun _ he => List.mem_cons_of_mem _ he

theorem of_unary {operator : Token} {right : Expr}
    (h : p.HasExpr regions scopes (.unary operator right)) : p.HasExpr regions scopes right :=
  h.of_parts (fun _ hf => hf) fun _ he => List.mem_cons_of_mem _ he

theorem of_binary {left right : Expr} {operator : Token}
    (h : p.HasExpr regions scopes (.binary left operator right)) :
    p.HasExpr regions scopes left ∧ p.HasExpr regions scopes right :=
  ⟨h.of_parts (fun _ hf => List.mem_append_left _ hf) fun _ he =>
      List.mem_cons_of_mem _ (List.mem_append_left _ he),
    h.of_parts (fun _ hf => List.mem_append_right _ hf) fun _ he =>
      List.mem_cons_of_mem _ (List.mem_append_right _ he)⟩

theorem of_logical {left right : Expr} {operator : Token}
    (h : p.HasExpr regions scopes (.logical left operator right)) :
    p.HasExpr regions scopes left ∧ p.HasExpr regions scopes right :=
  ⟨h.of_parts (fun _ hf => List.mem_append_left _ hf) fun _ he =>
      List.mem_cons_of_mem _ (List.mem_append_left _ he),
    h.of_parts (fun _ hf => List.mem_append_right _ hf) fun _ he =>
      List.mem_cons_of_mem _ (List.mem_append_right _ he)⟩

/-- What the table of the program says of a variable. -/
theorem recorded {e : Expr} {id : NodeId} {name : Token} (h : p.HasExpr regions scopes e)
    (hmention : e.mention? = some (id, name)) :
    id ∈ p.ids ∧ p.resolution.hops[id]? = Scope.hops? scopes name.lexeme := by
  obtain ⟨access, hreference⟩ := Expr.reference_of_mention hmention scopes
  exact h.found _ hreference

theorem of_assign {id : NodeId} {name : Token} {value : Expr}
    (h : p.HasExpr regions scopes (.assign id name value)) : p.HasExpr regions scopes value :=
  h.of_parts (fun _ hf => List.mem_append_left _ hf) fun _ he => List.mem_cons_of_mem _ he

end HasExpr

/-- The arguments of a call, all in the same place. -/
structure HasExprs (p : Program) (regions : List Region) (scopes : List Scope) (es : List Expr) :
    Prop where
  settled : Scope.Settled scopes.tail
  found : ∀ f ∈ Expr.findingsOfAll scopes es, p.Records f
  sites : ∀ e' ∈ Expr.partsOfAll es, (regions, e') ∈ p.sites
  initializes : ∀ e' ∈ Expr.partsOfAll es, Initializes regions scopes e'

theorem HasExpr.of_call {callee : Expr} {paren : Token} {arguments : List Expr}
    (h : p.HasExpr regions scopes (.call callee paren arguments)) :
    p.HasExpr regions scopes callee ∧ p.HasExprs regions scopes arguments :=
  ⟨h.of_parts (fun _ hf => List.mem_append_left _ hf) fun _ he =>
      List.mem_cons_of_mem _ (List.mem_append_left _ he),
    h.settled, fun f hf => h.found f (List.mem_append_right _ hf),
    fun e' he => h.sites e' (List.mem_cons_of_mem _ (List.mem_append_right _ he)),
    fun e' he => h.initializes e' (List.mem_cons_of_mem _ (List.mem_append_right _ he))⟩

theorem HasExprs.of_cons {e : Expr} {es : List Expr} (h : p.HasExprs regions scopes (e :: es)) :
    p.HasExpr regions scopes e ∧ p.HasExprs regions scopes es :=
  ⟨⟨h.settled, fun f hf => h.found f (List.mem_append_left _ hf),
      fun e' he => h.sites e' (List.mem_append_left _ he),
      fun e' he => h.initializes e' (List.mem_append_left _ he)⟩,
    h.settled, fun f hf => h.found f (List.mem_append_right _ hf),
    fun e' he => h.sites e' (List.mem_append_right _ he),
    fun e' he => h.initializes e' (List.mem_append_right _ he)⟩

namespace HasStmt

theorem declared {s : Stmt} (h : p.HasStmt regions inFunction scopes s) (t : Token)
    (ht : t ∈ s.declared?) : ∀ r ∈ regions.head?, r.Declares t.lexeme := by
  intro r hr
  have hd : s.isDeclaration = true := by
    rw [← Bool.not_eq_false]
    intro hd
    rw [Stmt.declared?_eq_none hd] at ht
    cases ht
  obtain ⟨ss, hcontinues⟩ := h.continues hd r hr
  exact hcontinues.declares (List.mem_filterMap.mpr ⟨s, List.mem_cons_self, ht⟩)

/-- An expression that stands where all names are ready. -/
theorem hasExpr {s : Stmt} {e : Expr} (h : p.HasStmt regions inFunction scopes s)
    (hfound : ∀ f ∈ e.findings scopes, f ∈ (s.findings inFunction scopes).2)
    (hsites : ∀ e' ∈ e.parts, (regions, e') ∈ s.sites regions) : p.HasExpr regions scopes e :=
  ⟨h.settled.tail, fun f hf => h.found f (hfound f hf), fun e' he => h.sites _ (hsites e' he),
    fun e' _ => initializes_of_settled h.settled e'⟩

theorem of_expression {e : Expr} (h : p.HasStmt regions inFunction scopes (.expression e)) :
    p.HasExpr regions scopes e :=
  h.hasExpr (fun _ hf => hf) fun _ he => List.mem_map_of_mem he

theorem of_print {e : Expr} (h : p.HasStmt regions inFunction scopes (.print e)) :
    p.HasExpr regions scopes e :=
  h.hasExpr (fun _ hf => hf) fun _ he => List.mem_map_of_mem he

/-- In an initializer one name is not ready, and it was ready before only if it was declared
before. -/
theorem of_declare {name : Token} {e : Expr}
    (h : p.HasStmt regions inFunction scopes (.declare name (some e))) :
    p.HasExpr regions (Scope.note name false scopes) e := by
  refine ⟨h.settled.tail_note name false, h.found,
    fun _ he => h.sites _ (List.mem_map_of_mem he), fun e' he => ?_⟩
  intro scope hscope other hunready hnever r hr
  cases scopes with
  | nil => cases hscope
  | cons inner outer =>
    cases hscope
    obtain rfl : other = name.lexeme := by
      rw [List.lookup_cons] at hunready
      split at hunready
      · next heq => exact eq_of_beq heq
      · exact absurd hunready (h.settled inner List.mem_cons_self other)
    obtain ⟨after, before, hbody, hready⟩ := h.continues rfl r hr
    refine ⟨before, name, e, after, hbody, rfl, he, fun t ht hsame => hnever ?_⟩
    rw [← hsame]
    exact List.mem_cons_of_mem _ (hready t ht inner rfl)

theorem of_block {body : List Stmt} (h : p.HasStmt regions inFunction scopes (.block body)) :
    p.HasBody (⟨[], body⟩ :: regions) inFunction ([] :: scopes) body := by
  refine ⟨h.settled.opened, h.regular, h.found, h.sites,
    fun place hs => h.places place (List.mem_cons_of_mem _ hs), fun r hr => ?_⟩
  obtain rfl : ⟨[], body⟩ = r := by simpa using hr
  exact Region.continues_block body _

theorem of_function {name : Token} {params : List Token} {body : List Stmt}
    (h : p.HasStmt regions inFunction scopes (.function name params body)) :
    p.HasBody (⟨params, body⟩ :: regions) true
      (Region.scopes params (Scope.note name true scopes)) body := by
  have hsettled := (h.settled.note_ready name).opened.note_params params
  refine ⟨hsettled, h.regular, h.found, h.sites,
    fun place hs => h.places place (List.mem_cons_of_mem _ hs), fun r hr => ?_⟩
  obtain rfl : ⟨params, body⟩ = r := by simpa using hr
  exact Region.continues_function params body _

theorem of_returnFrom {keyword : Token} {e : Expr}
    (h : p.HasStmt regions inFunction scopes (.returnFrom keyword (some e))) :
    p.HasExpr regions scopes e :=
  h.hasExpr (fun _ hf => List.mem_append_right _ hf) fun _ he => List.mem_map_of_mem he

/-- A statement inside another one that is no declaration and shares its scopes. -/
theorem of_branch {s inner : Stmt} (h : p.HasStmt regions inFunction scopes s)
    (hinner : inner.isDeclaration = false ∧ inner.Regular)
    (hfound : ∀ f ∈ (inner.findings inFunction scopes).2, f ∈ (s.findings inFunction scopes).2)
    (hsites : ∀ site ∈ inner.sites regions, site ∈ s.sites regions)
    (hplaces : ∀ place ∈ inner.places regions, place ∈ s.places regions) :
    p.HasStmt regions inFunction scopes inner := by
  refine ⟨h.settled, hinner.2, fun f hf => h.found f (hfound f hf),
    fun site hs => h.sites site (hsites site hs),
    fun place hs => h.places place (hplaces place hs), fun hd => ?_⟩
  rw [hinner.1] at hd
  cases hd

theorem of_ifThen {condition : Expr} {thenBranch : Stmt}
    (h : p.HasStmt regions inFunction scopes (.ifThen condition thenBranch)) :
    p.HasExpr regions scopes condition ∧ p.HasStmt regions inFunction scopes thenBranch := by
  refine ⟨h.hasExpr (fun _ hf => List.mem_append_left _ hf) fun _ he =>
    List.mem_append_left _ (List.mem_map_of_mem he), ?_⟩
  exact h.of_branch h.regular (fun f hf => List.mem_append_right _ hf)
    (fun _ hs => List.mem_append_right _ hs) fun _ hs => List.mem_cons_of_mem _ hs

theorem of_ifElse {condition : Expr} {thenBranch elseBranch : Stmt}
    (h : p.HasStmt regions inFunction scopes (.ifElse condition thenBranch elseBranch)) :
    p.HasExpr regions scopes condition ∧ p.HasStmt regions inFunction scopes thenBranch ∧
      p.HasStmt regions inFunction scopes elseBranch := by
  have hscopes := Stmt.scopes_findings h.regular.1.1 h.regular.1.2 inFunction scopes
  have hfound : (Stmt.findings inFunction scopes (.ifElse condition thenBranch elseBranch)).2 =
      condition.findings scopes ++ (thenBranch.findings inFunction scopes).2 ++
        (elseBranch.findings inFunction scopes).2 := by
    rw [Stmt.findings_ifElse, hscopes]
  refine ⟨h.hasExpr (fun f hf => ?_) fun _ he =>
    List.mem_append_left _ (List.mem_map_of_mem he), ?_, ?_⟩
  · rw [hfound]
    exact List.mem_append_left _ (List.mem_append_left _ hf)
  · refine h.of_branch h.regular.1 (fun f hf => ?_)
      (fun _ hs => List.mem_append_right _ (List.mem_append_left _ hs))
      fun _ hs => List.mem_cons_of_mem _ (List.mem_append_left _ hs)
    rw [hfound]
    exact List.mem_append_left _ (List.mem_append_right _ hf)
  · refine h.of_branch h.regular.2 (fun f hf => ?_)
      (fun _ hs => List.mem_append_right _ (List.mem_append_right _ hs))
      fun _ hs => List.mem_cons_of_mem _ (List.mem_append_right _ hs)
    rw [hfound]
    exact List.mem_append_right _ hf

theorem of_whileLoop {condition : Expr} {body : Stmt}
    (h : p.HasStmt regions inFunction scopes (.whileLoop condition body)) :
    p.HasExpr regions scopes condition ∧ p.HasStmt regions inFunction scopes body := by
  refine ⟨h.hasExpr (fun _ hf => List.mem_append_left _ hf) fun _ he =>
    List.mem_append_left _ (List.mem_map_of_mem he), ?_⟩
  exact h.of_branch h.regular (fun f hf => List.mem_append_right _ hf)
    (fun _ hs => List.mem_append_right _ hs) fun _ hs => List.mem_cons_of_mem _ hs

end HasStmt

theorem HasBody.of_cons {s : Stmt} {ss : List Stmt}
    (h : p.HasBody regions inFunction scopes (s :: ss)) :
    p.HasStmt regions inFunction scopes s ∧
      p.HasBody regions inFunction (s.findings inFunction scopes).1 ss := by
  exact ⟨⟨h.settled, h.regular.1, fun f hf => h.found f (List.mem_append_left _ hf),
      fun site hs => h.sites site (List.mem_append_left _ hs),
      fun place hs => h.places place (List.mem_append_left _ hs),
      fun _ r hr => ⟨ss, h.continues r hr⟩⟩,
    h.settled.findings h.regular.1 inFunction, h.regular.2,
    fun f hf => h.found f (List.mem_append_right _ hf),
    fun site hs => h.sites site (List.mem_append_right _ hs),
    fun place hs => h.places place (List.mem_append_right _ hs),
    fun r hr => (h.continues r hr).next h.regular.1 inFunction⟩

end Program

end TreeWalk
