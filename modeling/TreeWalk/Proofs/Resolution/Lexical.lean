import Mathlib.Data.List.Forall2
import TreeWalk.Proofs.Syntax.Position

/-! The table of hop counts is lexical scoping. While the resolver walks over a tree, its scopes have
just the names that the scopes around the present position bind there, so what it finds of a variable
can be told from the position of the variable alone. -/

namespace TreeWalk

/-- The scope so many steps outward is the first one that binds a name at a position. -/
def Node.FirstBinds (root : Node) (name : String) (p : Position) (d : Nat) : Prop :=
  ∃ σ, (root.enclosing p)[d]? = some σ ∧ root.Binds name p σ ∧
    ∀ σ' ∈ (root.enclosing p).take d, ¬ root.Binds name p σ'

/-- What the walk over a part comes upon. -/
def Node.findings (inFunction : Bool) (scopes : List Scope) : Node → List Finding
  | program statements => (Stmt.findingsOfAll inFunction scopes statements).2
  | stmt s => (s.findings inFunction scopes).2
  | expr e => e.findings scopes

theorem Scope.tail_note (name : Token) (ready : Bool) (scopes : List Scope) :
    (Scope.note name ready scopes).tail = scopes.tail := by
  cases scopes <;> rfl

namespace Stmt

mutual

/-- Statements add names to the innermost scope only. -/
theorem tail_findings (inFunction : Bool) (scopes : List Scope) (s : Stmt) :
    (s.findings inFunction scopes).1.tail = scopes.tail := by
  match s with
  | expression _ | print _ | block _ | returnFrom _ _ => rfl
  | declare name _ => exact (Scope.tail_note ..).trans (Scope.tail_note ..)
  | function name _ _ => exact Scope.tail_note ..
  | ifThen _ thenBranch => exact thenBranch.tail_findings inFunction scopes
  | ifElse _ thenBranch elseBranch =>
    exact (elseBranch.tail_findings inFunction _).trans (thenBranch.tail_findings inFunction scopes)
  | whileLoop _ body => exact body.tail_findings inFunction scopes

theorem tail_findingsOfAll (inFunction : Bool) (scopes : List Scope) (ss : List Stmt) :
    (findingsOfAll inFunction scopes ss).1.tail = scopes.tail := by
  match ss with
  | [] => rfl
  | s :: ss =>
    exact (tail_findingsOfAll inFunction _ ss).trans (s.tail_findings inFunction scopes)

end

end Stmt

/-- The scopes of the resolver, innermost first, have just the names that the scopes standing at
`σs` bind at a position. -/
def Sees (root : Node) (p : Position) (scopes : List Scope) (σs : List Position) : Prop :=
  List.Forall₂ (fun scope σ => ∀ name, (scope.lookup name).isSome = true ↔ root.Binds name p σ)
    scopes σs

namespace Sees

variable {root n : Node} {p p' ρ : Position} {i : Nat} {scopes : List Scope} {σs : List Position}
  {name : String}

/-- Positions that come after the same declarations. -/
theorem moved (h : Sees root p scopes σs)
    (hsame : ∀ q t, (root.get? q).bind Node.declared? = some t → (q < p ↔ q < p')) :
    Sees root p' scopes σs := by
  refine h.imp fun scope σ hscope name => (hscope name).trans (or_congr_right ?_)
  refine exists_congr fun q => exists_congr fun t => ?_
  constructor
  · rintro ⟨hlt, hdeclared, hrest⟩
    exact ⟨(hsame q t hdeclared).mp hlt, hdeclared, hrest⟩
  · rintro ⟨hlt, hdeclared, hrest⟩
    exact ⟨(hsame q t hdeclared).mpr hlt, hdeclared, hrest⟩

/-- Going into a part that declares nothing itself. -/
theorem first (h : Sees root ρ scopes σs) (hn : root.get? ρ = some n) (hd : n.declared? = none) :
    Sees root (ρ ++ [0]) scopes σs := by
  refine h.moved fun q t ht => ?_
  have hne : q ≠ ρ := by
    rintro rfl
    rw [hn, Option.bind_some, hd] at ht
    cases ht
  rw [Position.lt_first_iff, or_iff_left hne]

/-- Going on from the end of a child to the next one. -/
theorem next (h : Sees root (ρ ++ [i] ++ [n.children.length]) scopes σs)
    (hn : root.get? (ρ ++ [i]) = some n) : Sees root (ρ ++ [i + 1]) scopes σs := by
  refine h.moved fun q t ht => ?_
  rw [Position.lt_append_iff, Position.lt_next_iff]
  refine or_congr_right ⟨?_, ?_⟩
  · rintro ⟨w, rfl, -⟩
    exact List.prefix_append _ w
  · rintro ⟨w, rfl⟩
    refine ⟨w, rfl, ?_⟩
    cases w with
    | nil => exact List.nil_lt_cons _ []
    | cons k w =>
      -- A part has no children beyond the last one.
      rw [Node.get?_append, hn, Option.bind_some, Node.get?] at ht
      obtain ⟨child, hchild, -⟩ := Option.bind_eq_some_iff.mp ht
      obtain ⟨child, hchild, -⟩ := Option.bind_eq_some_iff.mp hchild
      exact List.cons_lt_cons_iff.mpr (Or.inl (List.getElem?_eq_some_iff.mp hchild).1)

/-- Nothing is declared inside an expression. -/
theorem not_declared_of_expr {e : Expr} (hn : root.get? ρ = some (.expr e)) {q : Position}
    {t : Token} (h : (root.get? q).bind Node.declared? = some t) : ¬ ρ <+: q := by
  rintro ⟨w, rfl⟩
  obtain ⟨n, hget, hdeclared⟩ := Option.bind_eq_some_iff.mp h
  rw [Node.get?_append, hn, Option.bind_some] at hget
  obtain ⟨e', rfl⟩ := Node.get?_expr hget
  cases hdeclared

/-- Going past an expression. -/
theorem past {e : Expr} (h : Sees root (ρ ++ [i]) scopes σs)
    (hn : root.get? (ρ ++ [i]) = some (.expr e)) : Sees root (ρ ++ [i + 1]) scopes σs := by
  refine h.moved fun q t ht => ?_
  rw [Position.lt_next_iff, or_iff_left (not_declared_of_expr hn ht)]

/-- Going into an expression. -/
theorem into {e : Expr} (h : Sees root ρ scopes (root.enclosing ρ))
    (hn : root.get? ρ = some (.expr e)) (i : Nat) :
    Sees root (ρ ++ [i]) scopes (root.enclosing (ρ ++ [i])) := by
  rw [Node.enclosing_of_no_scope hn rfl]
  refine h.moved fun q t ht => ?_
  rw [Position.lt_append_iff, or_iff_left]
  rintro ⟨w, rfl, -⟩
  exact not_declared_of_expr hn ht (List.prefix_append ρ w)

/-- A declaration adds its name to the innermost scope, ready or not. -/
theorem declared {t : Token} (h : Sees root ρ scopes (root.enclosing ρ))
    (hn : root.get? ρ = some n) (hd : n.declared? = some t) (ready : Bool) :
    Sees root (ρ ++ [0]) (Scope.note t ready scopes) (root.enclosing ρ) := by
  have hdeclared : (root.get? ρ).bind Node.declared? = some t := by
    rw [hn, Option.bind_some, hd]
  have hbinds (name : String) (σ : Position) : root.Binds name (ρ ++ [0]) σ ↔
      root.Binds name ρ σ ∨ t.lexeme = name ∧ (root.enclosing ρ).head? = some σ := by
    rw [Node.Binds, Node.Binds, or_assoc]
    refine or_congr_right ⟨?_, ?_⟩
    · rintro ⟨q, t', hlt, ht', hname, hhead⟩
      rcases Position.lt_first_iff.mp hlt with hlt | rfl
      · exact Or.inl ⟨q, t', hlt, ht', hname, hhead⟩
      · obtain rfl := Option.some.inj (hdeclared.symm.trans ht')
        exact Or.inr ⟨hname, hhead⟩
    · rintro (⟨q, t', hlt, hrest⟩ | ⟨hname, hhead⟩)
      · exact ⟨q, t', Position.lt_first_iff.mpr (Or.inl hlt), hrest⟩
      · exact ⟨ρ, t, Position.lt_first_iff.mpr (Or.inr rfl), hdeclared, hname, hhead⟩
  have hnodup := root.nodup_enclosing ρ
  unfold Sees at h ⊢
  cases hσs : root.enclosing ρ with
  | nil =>
    rw [hσs] at h
    cases h
    exact .nil
  | cons σ σs =>
    rw [hσs] at h hnodup
    cases h with
    | @cons scope _ scopes _ hscope hrest =>
    rw [List.nodup_cons] at hnodup
    refine .cons (fun name => ?_) ?_
    · rw [hbinds, ← hscope name, hσs, List.head?_cons, List.lookup_cons]
      by_cases hname : name = t.lexeme
      · simp [hname]
      · have hother : ¬ t.lexeme = name := fun h => hname h.symm
        simp [beq_eq_false_iff_ne.mpr hname, hother]
    · -- The scopes further out stand elsewhere.
      refine (List.forall₂_iff_zip.mpr ⟨hrest.length_eq, fun {scope' σ'} hmem name => ?_⟩)
      have hne : σ ≠ σ' := by
        rintro rfl
        exact hnodup.1 (List.of_mem_zip hmem).2
      rw [hbinds, hσs, List.head?_cons, Option.some_inj, or_iff_left fun h => hne h.2]
      exact (List.forall₂_iff_zip.mp hrest).2 hmem name

/-- A name that is noted already may be noted again. -/
theorem noted_again {t : Token} {ready : Bool}
    (h : Sees root p (Scope.note t ready scopes) σs) (ready' : Bool) :
    Sees root p (Scope.note t ready' (Scope.note t ready scopes)) σs := by
  cases scopes with
  | nil => exact h
  | cons scope scopes =>
    cases h with
    | @cons _ σ _ σs hscope hrest =>
    refine .cons (fun name => ?_) hrest
    rw [← hscope name, List.lookup_cons, List.lookup_cons]
    cases name == t.lexeme <;> rfl

/-- At its start a scope binds its parameters and nothing else. -/
theorem opened {params : List Token} (h : Sees root (ρ ++ [0]) scopes (root.enclosing ρ))
    (hn : root.get? ρ = some n) (hparams : n.params? = some params) :
    Sees root (ρ ++ [0]) (Region.scopes params scopes) (ρ :: root.enclosing ρ) := by
  rw [Region.scopes_eq]
  refine .cons (fun name => ?_) h
  have hbinds : root.Binds name (ρ ++ [0]) ρ ↔ ∃ t ∈ params, t.lexeme = name := by
    rw [Node.Binds, hn, Option.bind_some, hparams]
    constructor
    · rintro (⟨params', heq, hmem⟩ | ⟨q, t, hlt, -, -, hhead⟩)
      · cases heq
        exact hmem
      · obtain ⟨hwithin, hne⟩ := Node.mem_enclosing (List.mem_of_mem_head? hhead)
        rcases Position.lt_first_iff.mp hlt with hlt | rfl
        · exact absurd hlt (Position.not_lt_of_prefix hwithin)
        · exact absurd rfl hne
    · exact fun hmem => Or.inl ⟨params, rfl, hmem⟩
  rw [hbinds, List.lookup_isSome_iff]
  constructor
  · rintro ⟨entry, hmem, hname⟩
    obtain ⟨t, ht, rfl⟩ := List.mem_map.mp hmem
    exact ⟨t, List.mem_reverse.mp ht, (eq_of_beq hname).symm⟩
  · rintro ⟨t, ht, rfl⟩
    exact ⟨_, List.mem_map_of_mem (List.mem_reverse.mpr ht), beq_self_eq_true t.lexeme⟩

/-- Out of a scope, the ones around it are the same as before it. -/
theorem closed {σ : Position} {scopes' : List Scope} (h : Sees root p scopes' (σ :: σs))
    (hscopes : scopes'.tail = scopes) : Sees root p scopes σs := by
  cases h with
  | cons _ hrest => exact hscopes ▸ hrest

end Sees

section Walk

variable {root : Node}

/-- The children of a part from the one with the given number on are the statements of a list. -/
def Node.Lists (root : Node) (ρ : Position) (k : Nat) (ss : List Stmt) : Prop :=
  ∀ i s, ss[i]? = some s → root.get? (ρ ++ [k + i]) = some (.stmt s)

theorem Node.lists_of_children {n : Node} {ρ : Position} {ss : List Stmt}
    (hn : root.get? ρ = some n) (hchildren : n.children = ss.map .stmt) : root.Lists ρ 0 ss := by
  intro i s hs
  rw [Nat.zero_add, Node.get?_concat hn, hchildren, List.getElem?_map, hs]
  rfl

theorem Node.statement_of_child {ss : List Stmt} {i : Nat} {child : Node}
    (h : (ss.map Node.stmt)[i]? = some child) : ∃ s, ss[i]? = some s ∧ .stmt s = child := by
  rw [List.getElem?_map] at h
  exact Option.map_eq_some_iff.mp h

theorem Node.Lists.tail {ρ : Position} {k : Nat} {s : Stmt} {ss : List Stmt}
    (h : root.Lists ρ k (s :: ss)) : root.Lists ρ (k + 1) ss := by
  intro i s' hs'
  rw [Nat.add_assoc, Nat.add_comm 1]
  exact h (i + 1) s' hs'

mutual

/-- After a statement the scopes have the names that are bound at its end. -/
theorem Stmt.sees_after {s : Stmt} {ρ : Position} {scopes : List Scope} (inFunction : Bool)
    (hn : root.get? ρ = some (.stmt s)) (h : Sees root ρ scopes (root.enclosing ρ)) :
    Sees root (ρ ++ [(Node.stmt s).children.length]) (s.findings inFunction scopes).1
      (root.enclosing ρ) := by
  have hat (i : Nat) : root.get? (ρ ++ [i]) = (Node.stmt s).children[i]? := Node.get?_concat hn
  have hplain (hs : (Node.stmt s).params? = none) (i : Nat) :
      root.enclosing (ρ ++ [i]) = root.enclosing ρ := Node.enclosing_of_no_scope hn hs i
  match s with
  | .expression _ | .print _ | .returnFrom _ (some _) => exact (h.first hn rfl).past (hat 0)
  | .returnFrom _ none => exact h.first hn rfl
  | .declare name none => exact (h.declared hn rfl false).noted_again true
  | .declare name (some e) => exact ((h.declared hn rfl false).past (hat 0)).noted_again true
  | .block body =>
    have hopened := (h.first hn rfl).opened hn rfl
    have hbody := Stmt.sees_afterAll inFunction (Node.lists_of_children hn rfl) hopened
      (Node.enclosing_of_scope hn rfl)
    have hclosed := hbody.closed (Stmt.tail_findingsOfAll inFunction _ body)
    rwa [Nat.zero_add, ← List.length_map (f := Node.stmt)] at hclosed
  | .function name params body =>
    have hopened := (h.declared hn rfl true).opened hn rfl
    have hbody := Stmt.sees_afterAll true (Node.lists_of_children hn rfl) hopened
      (Node.enclosing_of_scope hn rfl)
    have htail : (Region.scopes params (Scope.note name true scopes)).tail =
        Scope.note name true scopes := by
      rw [Region.scopes_eq]
      rfl
    have hclosed := hbody.closed ((Stmt.tail_findingsOfAll true _ body).trans htail)
    rwa [Nat.zero_add, ← List.length_map (f := Node.stmt)] at hclosed
  | .ifThen condition thenBranch =>
    have hcondition := (h.first hn rfl).past (hat 0)
    rw [← hplain rfl 1] at hcondition
    have hthen := (thenBranch.sees_after inFunction (hat 1) hcondition).next (hat 1)
    rwa [hplain rfl 1] at hthen
  | .ifElse condition thenBranch elseBranch =>
    -- The children come one after the other, each of them from where the last one ended.
    have hcondition := (h.first hn rfl).past (hat 0)
    rw [← hplain rfl 1] at hcondition
    have hthen := (thenBranch.sees_after inFunction (hat 1) hcondition).next (hat 1)
    rw [hplain rfl 1, ← hplain rfl 2] at hthen
    have helse := (elseBranch.sees_after inFunction (hat 2) hthen).next (hat 2)
    rwa [hplain rfl 2] at helse
  | .whileLoop condition body =>
    have hcondition := (h.first hn rfl).past (hat 0)
    rw [← hplain rfl 1] at hcondition
    have hbody := (body.sees_after inFunction (hat 1) hcondition).next (hat 1)
    rwa [hplain rfl 1] at hbody

/-- After some statements that stand in a row. -/
theorem Stmt.sees_afterAll {ss : List Stmt} {k : Nat} {ρ : Position} {scopes : List Scope}
    {σs : List Position} (inFunction : Bool) (hat : root.Lists ρ k ss)
    (h : Sees root (ρ ++ [k]) scopes σs) (hσs : ∀ i, root.enclosing (ρ ++ [i]) = σs) :
    Sees root (ρ ++ [k + ss.length]) (findingsOfAll inFunction scopes ss).1 σs := by
  match ss with
  | [] => exact h
  | s :: ss =>
    have hs : root.get? (ρ ++ [k]) = some (.stmt s) := hat 0 s rfl
    rw [← hσs k] at h
    have hnext := (s.sees_after inFunction hs h).next hs
    rw [hσs k] at hnext
    have hrest := Stmt.sees_afterAll inFunction hat.tail hnext hσs
    rwa [List.length_cons, Nat.add_comm ss.length, ← Nat.add_assoc]

end

/-- What the resolver knows when it comes to a part: the scopes around it, and that what it finds
there is among some findings. -/
def Node.Visited (root : Node) (found : List Finding) (ρ : Position) (n : Node) : Prop :=
  ∃ inFunction scopes, Sees root ρ scopes (root.enclosing ρ) ∧
    ∀ f ∈ n.findings inFunction scopes, f ∈ found

variable {found : List Finding} {n : Node} {ρ : Position}

theorem Expr.mem_findingsOfAll {scopes : List Scope} {e : Expr} {es : List Expr} (h : e ∈ es) :
    ∀ f ∈ e.findings scopes, f ∈ findingsOfAll scopes es := by
  induction es with
  | nil => cases h
  | cons first es ih =>
    intro f hf
    rcases List.mem_cons.mp h with rfl | h
    · exact List.mem_append_left _ hf
    · exact List.mem_append_right _ (ih h f hf)

theorem Expr.mem_findings_of_child {scopes : List Scope} {e inner : Expr}
    (h : inner ∈ e.children) : ∀ f ∈ inner.findings scopes, f ∈ e.findings scopes := by
  intro f hf
  match e with
  | .literal _ | .var _ _ => cases h
  | .grouping _ | .unary _ _ =>
    obtain rfl := List.mem_singleton.mp h
    exact hf
  | .assign _ _ _ =>
    obtain rfl := List.mem_singleton.mp h
    exact List.mem_append_left _ hf
  | .binary left _ right | .logical left _ right =>
    rcases List.mem_pair.mp h with rfl | rfl
    · exact List.mem_append_left _ hf
    · exact List.mem_append_right _ hf
  | .call callee _ arguments =>
    rcases List.mem_cons.mp h with rfl | h
    · exact List.mem_append_left _ hf
    · exact List.mem_append_right _ (Expr.mem_findingsOfAll h f hf)

/-- Statements in a row are visited one after the other. -/
theorem Stmt.visited_of_lists {ss : List Stmt} {k : Nat} {scopes : List Scope}
    {σs : List Position} {inFunction : Bool} (hat : root.Lists ρ k ss)
    (h : Sees root (ρ ++ [k]) scopes σs) (hσs : ∀ i, root.enclosing (ρ ++ [i]) = σs)
    (hfound : ∀ f ∈ (findingsOfAll inFunction scopes ss).2, f ∈ found) {i : Nat} {s : Stmt}
    (hs : ss[i]? = some s) : root.Visited found (ρ ++ [k + i]) (.stmt s) := by
  induction ss generalizing k scopes i with
  | nil => cases hs
  | cons first ss ih =>
    have hfirst : root.get? (ρ ++ [k]) = some (.stmt first) := hat 0 first rfl
    rw [← hσs k] at h
    cases i with
    | zero =>
      cases hs
      exact ⟨inFunction, scopes, h, fun f hf => hfound f (List.mem_append_left _ hf)⟩
    | succ i =>
      have hnext := (first.sees_after inFunction hfirst h).next hfirst
      rw [hσs k] at hnext
      rw [← Nat.add_assoc, Nat.add_right_comm]
      exact ih hat.tail hnext (fun f hf => hfound f (List.mem_append_right _ hf)) hs

/-- From a statement the walk comes to each of its children. -/
theorem Stmt.visited_child {s : Stmt} {inFunction : Bool} {scopes : List Scope}
    (hn : root.get? ρ = some (.stmt s)) (h : Sees root ρ scopes (root.enclosing ρ))
    (hfound : ∀ f ∈ (s.findings inFunction scopes).2, f ∈ found) {i : Nat} {child : Node}
    (hchild : (Node.stmt s).children[i]? = some child) :
    root.Visited found (ρ ++ [i]) child := by
  have hat (i : Nat) : root.get? (ρ ++ [i]) = (Node.stmt s).children[i]? := Node.get?_concat hn
  have hplain (hs : (Node.stmt s).params? = none) (i : Nat) :
      root.enclosing (ρ ++ [i]) = root.enclosing ρ := Node.enclosing_of_no_scope hn hs i
  -- An expression that comes first is visited with the scopes before the statement.
  have hfirst (hs : (Node.stmt s).params? = none) (hd : (Node.stmt s).declared? = none) :
      Sees root (ρ ++ [0]) scopes (root.enclosing (ρ ++ [0])) := by
    rw [hplain hs 0]
    exact h.first hn hd
  -- A branch after it is visited with the same scopes.
  have hsecond {e : Expr} (hs : (Node.stmt s).params? = none)
      (hd : (Node.stmt s).declared? = none) (he : (Node.stmt s).children[0]? = some (.expr e)) :
      Sees root (ρ ++ [1]) scopes (root.enclosing (ρ ++ [1])) := by
    rw [hplain hs 1]
    exact (h.first hn hd).past ((hat 0).trans he)
  cases s with
  | expression e | print e =>
    cases i with
    | zero =>
      cases hchild
      exact ⟨inFunction, scopes, hfirst rfl rfl, hfound⟩
    | succ i => cases hchild
  | returnFrom keyword value =>
    cases value with
    | none => cases hchild
    | some e =>
      cases i with
      | zero =>
        cases hchild
        exact ⟨inFunction, scopes, hfirst rfl rfl,
          fun f hf => hfound f (List.mem_append_right _ hf)⟩
      | succ i => cases hchild
  | declare name initializer =>
    cases initializer with
    | none => cases hchild
    | some e =>
      cases i with
      | zero =>
        cases hchild
        refine ⟨inFunction, Scope.note name false scopes, ?_, hfound⟩
        rw [hplain rfl 0]
        exact h.declared hn rfl false
      | succ i => cases hchild
  | block body =>
    obtain ⟨s, hs, rfl⟩ := Node.statement_of_child hchild
    rw [← Nat.zero_add i]
    exact Stmt.visited_of_lists (Node.lists_of_children hn rfl) ((h.first hn rfl).opened hn rfl)
      (Node.enclosing_of_scope hn rfl) hfound hs
  | function name params body =>
    obtain ⟨s, hs, rfl⟩ := Node.statement_of_child hchild
    rw [← Nat.zero_add i]
    exact Stmt.visited_of_lists (Node.lists_of_children hn rfl)
      ((h.declared hn rfl true).opened hn rfl) (Node.enclosing_of_scope hn rfl) hfound hs
  | ifThen condition branch | whileLoop condition branch =>
    rcases i with _ | _ | i
    · cases hchild
      exact ⟨inFunction, scopes, hfirst rfl rfl, fun f hf => hfound f (List.mem_append_left _ hf)⟩
    · cases hchild
      exact ⟨inFunction, scopes, hsecond rfl rfl rfl,
        fun f hf => hfound f (List.mem_append_right _ hf)⟩
    · cases hchild
  | ifElse condition thenBranch elseBranch =>
    -- The second branch is visited with the scopes that the first one leaves.
    rcases i with _ | _ | _ | i
    · cases hchild
      exact ⟨inFunction, scopes, hfirst rfl rfl,
        fun f hf => hfound f (List.mem_append_left _ (List.mem_append_left _ hf))⟩
    · cases hchild
      exact ⟨inFunction, scopes, hsecond rfl rfl rfl,
        fun f hf => hfound f (List.mem_append_left _ (List.mem_append_right _ hf))⟩
    · cases hchild
      have hthen := (thenBranch.sees_after inFunction (hat 1) (hsecond rfl rfl rfl)).next (hat 1)
      rw [hplain rfl 1, ← hplain rfl 2] at hthen
      exact ⟨inFunction, _, hthen, fun f hf => hfound f (List.mem_append_right _ hf)⟩
    · cases hchild

/-- From a part the walk comes to each of its children. -/
theorem Node.Visited.child (hn : root.get? ρ = some n) (h : root.Visited found ρ n) {i : Nat}
    {child : Node} (hchild : n.children[i]? = some child) :
    root.Visited found (ρ ++ [i]) child := by
  obtain ⟨inFunction, scopes, hsees, hfound⟩ := h
  match n with
  | .program statements =>
    obtain ⟨s, hs, rfl⟩ := Node.statement_of_child hchild
    rw [← Nat.zero_add i]
    exact Stmt.visited_of_lists (Node.lists_of_children hn rfl) (hsees.first hn rfl)
      (Node.enclosing_of_no_scope hn rfl) hfound hs
  | .stmt s => exact Stmt.visited_child hn hsees hfound hchild
  | .expr e =>
    obtain ⟨inner, hinner, rfl⟩ := List.mem_map.mp (List.mem_of_getElem? hchild)
    exact ⟨inFunction, scopes, hsees.into hn i,
      fun f hf => hfound f (Expr.mem_findings_of_child hinner f hf)⟩

/-- By induction on the way from one part down to another: the walk comes to whatever is inside. -/
theorem Node.Visited.get? (hn : root.get? ρ = some n) (h : root.Visited found ρ n) {u : Position}
    {inner : Node} (hinner : n.get? u = some inner) : root.Visited found (ρ ++ u) inner := by
  induction u generalizing ρ n with
  | nil =>
    cases hinner
    rwa [List.append_nil]
  | cons i u ih =>
    obtain ⟨child, hchild, hinner⟩ := Option.bind_eq_some_iff.mp hinner
    have hat : root.get? (ρ ++ [i]) = some child := (Node.get?_concat hn).trans hchild
    rw [List.append_cons]
    exact ih hat (h.child hn hchild) hinner

end Walk

/-- The first scope with a name in it is the first one that binds the name. -/
theorem Sees.hops_eq_some_iff {root : Node} {p : Position} {scopes : List Scope}
    {σs : List Position} (h : Sees root p scopes σs) (name : String) (d : Nat) :
    Scope.hops? scopes name = some d ↔ ∃ σ, σs[d]? = some σ ∧ root.Binds name p σ ∧
      ∀ σ' ∈ σs.take d, ¬ root.Binds name p σ' := by
  induction h generalizing d with
  | nil => simp [Scope.hops?]
  | @cons scope σ scopes σs hscope hrest ih =>
    rw [Scope.hops?, List.findIdx?_cons]
    by_cases hfound : (scope.lookup name).isSome = true
    · have hbinds := (hscope name).mp hfound
      rw [if_pos hfound]
      cases d with
      | zero => simp [hbinds]
      | succ d => simp [hbinds]
    · have hbinds : ¬ root.Binds name p σ := fun hb => hfound ((hscope name).mpr hb)
      rw [if_neg hfound]
      cases d with
      | zero => simp [hbinds]
      | succ d =>
        have htail := ih d
        rw [Scope.hops?] at htail
        simp [htail, hbinds]

theorem Sees.hops_eq_none_iff {root : Node} {p : Position} {scopes : List Scope}
    {σs : List Position} (h : Sees root p scopes σs) (name : String) :
    Scope.hops? scopes name = none ↔ ∀ σ ∈ σs, ¬ root.Binds name p σ := by
  induction h with
  | nil => simp [Scope.hops?]
  | @cons scope σ scopes σs hscope hrest ih =>
    rw [Scope.hops?] at ih
    rw [Scope.hops?, List.findIdx?_cons, List.forall_mem_cons, ← hscope name, ← ih]
    by_cases hfound : (scope.lookup name).isSome = true
    · simp [hfound]
    · simp [hfound]

/-- A variable with the given identity is read or written somewhere in a part. -/
def Node.Mentions (n : Node) (id : NodeId) : Prop :=
  ∃ p name, (n.get? p).bind mention? = some (id, name)

section Identities

variable {id : NodeId}

theorem Node.Mentions.of_child {n child : Node} (hchild : child ∈ n.children)
    (h : child.Mentions id) : n.Mentions id := by
  obtain ⟨p, name, hp⟩ := h
  obtain ⟨i, hi⟩ := List.mem_iff_getElem?.mp hchild
  refine ⟨i :: p, name, ?_⟩
  rwa [Node.get?, hi, Option.bind_some]

mutual

theorem Expr.mentions_of_mem_ids {e : Expr} (h : id ∈ e.ids) : (Node.expr e).Mentions id := by
  have hinner {inner : Expr} (hinner : inner ∈ e.children)
      (hmentions : (Node.expr inner).Mentions id) : (Node.expr e).Mentions id :=
    .of_child (List.mem_map_of_mem hinner) hmentions
  match e with
  | .literal _ => cases h
  | .grouping inner => exact hinner (List.mem_singleton_self _) (inner.mentions_of_mem_ids h)
  | .unary _ right => exact hinner (List.mem_singleton_self _) (right.mentions_of_mem_ids h)
  | .binary left _ right | .logical left _ right =>
    rcases List.mem_append.mp h with h | h
    · exact hinner List.mem_cons_self (left.mentions_of_mem_ids h)
    · exact hinner (List.mem_pair.mpr (Or.inr rfl)) (right.mentions_of_mem_ids h)
  | .var id' name =>
    obtain rfl := List.mem_singleton.mp h
    exact ⟨[], name, rfl⟩
  | .assign id' name value =>
    rcases List.mem_append.mp h with h | h
    · exact hinner (List.mem_singleton_self _) (value.mentions_of_mem_ids h)
    · obtain rfl := List.mem_singleton.mp h
      exact ⟨[], name, rfl⟩
  | .call callee _ arguments =>
    rcases List.mem_append.mp h with h | h
    · exact hinner List.mem_cons_self (callee.mentions_of_mem_ids h)
    · obtain ⟨argument, hmem, hmentions⟩ := Expr.mentions_of_mem_idsOfAll h
      exact hinner (List.mem_cons_of_mem _ hmem) hmentions

theorem Expr.mentions_of_mem_idsOfAll {es : List Expr} (h : id ∈ idsOfAll es) :
    ∃ e ∈ es, (Node.expr e).Mentions id := by
  match es with
  | [] => cases h
  | e :: es =>
    rcases List.mem_append.mp h with h | h
    · exact ⟨e, List.mem_cons_self, e.mentions_of_mem_ids h⟩
    · obtain ⟨e', hmem, hmentions⟩ := Expr.mentions_of_mem_idsOfAll h
      exact ⟨e', List.mem_cons_of_mem _ hmem, hmentions⟩

end

mutual

theorem Stmt.mentions_of_mem_ids {s : Stmt} (h : id ∈ s.ids) : (Node.stmt s).Mentions id := by
  match s with
  | .expression e | .print e | .declare _ (some e) | .returnFrom _ (some e) =>
    exact .of_child (List.mem_singleton_self _) (e.mentions_of_mem_ids h)
  | .declare _ none | .returnFrom _ none => cases h
  | .block body | .function _ _ body =>
    obtain ⟨s, hmem, hmentions⟩ := Stmt.mentions_of_mem_idsOfAll h
    exact .of_child (List.mem_map_of_mem hmem) hmentions
  | .ifThen condition branch | .whileLoop condition branch =>
    rcases List.mem_append.mp h with h | h
    · exact .of_child List.mem_cons_self (condition.mentions_of_mem_ids h)
    · exact .of_child (List.mem_pair.mpr (Or.inr rfl)) (branch.mentions_of_mem_ids h)
  | .ifElse condition thenBranch elseBranch =>
    rcases List.mem_append.mp h with h | h
    · rcases List.mem_append.mp h with h | h
      · exact .of_child List.mem_cons_self (condition.mentions_of_mem_ids h)
      · exact .of_child (List.mem_cons_of_mem _ List.mem_cons_self)
          (thenBranch.mentions_of_mem_ids h)
    · exact .of_child (List.mem_cons_of_mem _ (List.mem_pair.mpr (Or.inr rfl)))
        (elseBranch.mentions_of_mem_ids h)

theorem Stmt.mentions_of_mem_idsOfAll {ss : List Stmt} (h : id ∈ idsOfAll ss) :
    ∃ s ∈ ss, (Node.stmt s).Mentions id := by
  match ss with
  | [] => cases h
  | s :: ss =>
    rcases List.mem_append.mp h with h | h
    · exact ⟨s, List.mem_cons_self, s.mentions_of_mem_ids h⟩
    · obtain ⟨s', hmem, hmentions⟩ := Stmt.mentions_of_mem_idsOfAll h
      exact ⟨s', List.mem_cons_of_mem _ hmem, hmentions⟩

end

end Identities

/-- What is found for a variable of a program can be told from where it stands. -/
theorem Sees.of_mention {program : List Stmt} {p : Position} {id : NodeId} {name : Token}
    (h : ((Node.program program).get? p).bind Node.mention? = some (id, name)) :
    ∃ access scopes, Sees (.program program) p scopes ((Node.program program).enclosing p) ∧
      .reference ⟨access, id, name, Scope.hops? scopes name.lexeme⟩ ∈
        (Stmt.findingsOfAll false [] program).2 := by
  obtain ⟨n, hn, hmention⟩ := Option.bind_eq_some_iff.mp h
  have hroot : (Node.program program).Visited (Stmt.findingsOfAll false [] program).2 []
      (.program program) := ⟨false, [], .nil, fun f hf => hf⟩
  obtain ⟨inFunction, scopes, hsees, hfound⟩ := hroot.get? rfl hn
  cases n with
  | program _ | stmt _ => cases hmention
  | expr e =>
    obtain ⟨access, hreference⟩ := Expr.reference_of_mention hmention scopes
    exact ⟨access, scopes, hsees, hfound _ hreference⟩

/-- The table of hop counts is lexical scoping. In a program no two of whose variables have the same
identity, a variable has the hop count `d` if and only if the scope `d` steps outward from it is the
first one that binds its name there; it has none if and only if no scope around it does; and the
table holds nothing else. -/
theorem hops_lexical (program : List Stmt) (hids : (Stmt.idsOfAll program).Nodup) :
    (∀ p id name, ((Node.program program).get? p).bind Node.mention? = some (id, name) →
      (∀ d, (resolve program).hops[id]? = some d ↔
        (Node.program program).FirstBinds name.lexeme p d) ∧
      ((resolve program).hops[id]? = none ↔ ∀ σ ∈ (Node.program program).enclosing p,
        ¬ (Node.program program).Binds name.lexeme p σ)) ∧
    ∀ id d, (resolve program).hops[id]? = some d → (Node.program program).Mentions id := by
  constructor
  · intro p id name h
    obtain ⟨access, scopes, hsees, hfound⟩ := Sees.of_mention h
    have hhops : (resolve program).hops[id]? = Scope.hops? scopes name.lexeme :=
      resolve_hops hids hfound
    rw [hhops]
    exact ⟨hsees.hops_eq_some_iff name.lexeme, hsees.hops_eq_none_iff name.lexeme⟩
  · intro id d hd
    by_cases hmem : id ∈ Stmt.idsOfAll program
    · obtain ⟨s, hs, hmentions⟩ := Stmt.mentions_of_mem_idsOfAll hmem
      exact .of_child (List.mem_map_of_mem hs) hmentions
    · rw [resolve_hops_of_not_mem hmem] at hd
      cases hd

/-- A block with a variable, and in it a block that reads the variable and then declares a function
of the same name, which assigns its parameter to itself. -/
def shadowing : List Stmt :=
  let x : Token := ⟨.identifier, "x", 1⟩
  let y : Token := ⟨.identifier, "y", 1⟩
  [.block [.declare x none,
    .block [.print (.var 0 x),
      .function x [y] [.expression (.assign 2 x (.var 1 y))]]]]

/-- The read comes before the function, so it finds the variable; the assignment in the body of the
function finds the function. -/
theorem hops_lexical_shadowing : (Stmt.idsOfAll shadowing).Nodup ∧
    (Node.program shadowing).FirstBinds "x" [0, 1, 0, 0] 1 ∧
      (Node.program shadowing).FirstBinds "x" [0, 1, 1, 0, 0] 1 := by
  have hids : (Stmt.idsOfAll shadowing).Nodup := by decide
  obtain ⟨hmentions, -⟩ := hops_lexical shadowing hids
  obtain ⟨hread, -⟩ := hmentions [0, 1, 0, 0] 0 ⟨.identifier, "x", 1⟩ rfl
  obtain ⟨hwrite, -⟩ := hmentions [0, 1, 1, 0, 0] 2 ⟨.identifier, "x", 1⟩ rfl
  exact ⟨hids, (hread 1).mp rfl, (hwrite 1).mp rfl⟩

end TreeWalk
