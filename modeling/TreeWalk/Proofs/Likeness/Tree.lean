import Mathlib.Data.List.Forall2
import TreeWalk.Proofs.Syntax.Tree

/-! Trees that are alike: they differ only in the identities of variables, in lines, and in how
the names of some scopes are spelled. -/

namespace TreeWalk

/-- In what two programs may differ. Frames come in two sorts, and how a name is spelled on the
other side depends on the sort of the frame that it is looked for in. -/
structure Likeness where
  /-- Two variables are both found so many frames outward, or both among the globals. -/
  node : NodeId → NodeId → Option Nat → Prop
  line : Nat → Nat → Prop
  spelled : Bool → String → String → Prop

/-- For every number of steps outward, the sort of the frame there. -/
abbrev Outlook := Nat → Bool

namespace Outlook

/-- What is seen from a frame of the given sort inside. -/
def enter (sort : Bool) (o : Outlook) : Outlook
  | 0 => sort
  | d + 1 => o d

/-- The sort of the frame so many steps outward. The globals are of the first sort. -/
def sortAt (o : Outlook) : Option Nat → Bool
  | some d => o d
  | none => false

/-- All frames are of the first sort. -/
def plain : Outlook :=
  fun _ => false

theorem enter_plain : plain.enter false = plain := by
  funext d
  cases d <;> rfl

theorem sortAt_plain (hops : Option Nat) : plain.sortAt hops = false := by
  cases hops <;> rfl

end Outlook

namespace Likeness

variable (l : Likeness)

/-- Tokens that are the same but for their lines. -/
structure Token (t t' : Token) : Prop where
  kind : t.kind = t'.kind
  lexeme : t.lexeme = t'.lexeme
  line : l.line t.line t'.line

/-- Names of variables that live in a frame of the given sort. -/
structure Name (sort : Bool) (t t' : TreeWalk.Token) : Prop where
  kind : t.kind = t'.kind
  spelled : l.spelled sort t.lexeme t'.lexeme
  line : l.line t.line t'.line

/-- All that one likeness allows is allowed by another one. -/
structure Le (l l' : Likeness) : Prop where
  node : ∀ {id id' hops}, l.node id id' hops → l'.node id id' hops
  line : ∀ {n n'}, l.line n n' → l'.line n n'
  spelled : ∀ {sort s s'}, l.spelled sort s s' → l'.spelled sort s s'

end Likeness

mutual

/-- Expressions in places with the given outlook that are alike. -/
inductive Expr.Alike (l : Likeness) (o : Outlook) : Expr → Expr → Prop where
  | literal {value} : Expr.Alike l o (.literal value) (.literal value)
  | grouping {e e'} : Expr.Alike l o e e' → Expr.Alike l o (.grouping e) (.grouping e')
  | unary {operator operator' e e'} : l.Token operator operator' → Expr.Alike l o e e' →
      Expr.Alike l o (.unary operator e) (.unary operator' e')
  | binary {operator operator' e e' f f'} : Expr.Alike l o e e' → l.Token operator operator' →
      Expr.Alike l o f f' → Expr.Alike l o (.binary e operator f) (.binary e' operator' f')
  | logical {operator operator' e e' f f'} : Expr.Alike l o e e' → l.Token operator operator' →
      Expr.Alike l o f f' → Expr.Alike l o (.logical e operator f) (.logical e' operator' f')
  | var {id id' hops name name'} : l.node id id' hops → l.Name (o.sortAt hops) name name' →
      Expr.Alike l o (.var id name) (.var id' name')
  | assign {id id' hops name name' e e'} : l.node id id' hops →
      l.Name (o.sortAt hops) name name' → Expr.Alike l o e e' →
      Expr.Alike l o (.assign id name e) (.assign id' name' e')
  | call {paren paren' e e' es es'} : Expr.Alike l o e e' → l.Token paren paren' →
      Expr.AllAlike l o es es' → Expr.Alike l o (.call e paren es) (.call e' paren' es')

inductive Expr.AllAlike (l : Likeness) (o : Outlook) : List Expr → List Expr → Prop where
  | nil : Expr.AllAlike l o [] []
  | cons {e e' es es'} : Expr.Alike l o e e' → Expr.AllAlike l o es es' →
      Expr.AllAlike l o (e :: es) (e' :: es')

end

inductive Expr.OptionAlike (l : Likeness) (o : Outlook) : Option Expr → Option Expr → Prop where
  | none : Expr.OptionAlike l o none none
  | some {e e'} : Expr.Alike l o e e' → Expr.OptionAlike l o (some e) (some e')

mutual

/-- Statements in places with the given outlook that are alike. Blocks and bodies may open frames
of either sort. A declared function is called the same on both sides, since its name can be
printed. -/
inductive Stmt.Alike (l : Likeness) : Outlook → Stmt → Stmt → Prop where
  | expression {o e e'} : Expr.Alike l o e e' → Stmt.Alike l o (.expression e) (.expression e')
  | print {o e e'} : Expr.Alike l o e e' → Stmt.Alike l o (.print e) (.print e')
  | declare {o name name' e e'} : l.Name (o 0) name name' → Expr.OptionAlike l o e e' →
      Stmt.Alike l o (.declare name e) (.declare name' e')
  | block {o body body'} (sort : Bool) : Stmt.AllAlike l (o.enter sort) body body' →
      Stmt.Alike l o (.block body) (.block body')
  | ifThen {o e e' s s'} : Expr.Alike l o e e' → Stmt.Alike l o s s' →
      Stmt.Alike l o (.ifThen e s) (.ifThen e' s')
  | ifElse {o e e' s s' t t'} : Expr.Alike l o e e' → Stmt.Alike l o s s' →
      Stmt.Alike l o t t' → Stmt.Alike l o (.ifElse e s t) (.ifElse e' s' t')
  | whileLoop {o e e' s s'} : Expr.Alike l o e e' → Stmt.Alike l o s s' →
      Stmt.Alike l o (.whileLoop e s) (.whileLoop e' s')
  | function {o name name' params params' body body'} (sort : Bool) : l.Token name name' →
      l.spelled (o 0) name.lexeme name'.lexeme → List.Forall₂ (l.Name sort) params params' →
      Stmt.AllAlike l (o.enter sort) body body' →
      Stmt.Alike l o (.function name params body) (.function name' params' body')
  | returnFrom {o keyword keyword' e e'} : l.Token keyword keyword' →
      Expr.OptionAlike l o e e' →
      Stmt.Alike l o (.returnFrom keyword e) (.returnFrom keyword' e')

inductive Stmt.AllAlike (l : Likeness) : Outlook → List Stmt → List Stmt → Prop where
  | nil {o} : Stmt.AllAlike l o [] []
  | cons {o s s' ss ss'} : Stmt.Alike l o s s' → Stmt.AllAlike l o ss ss' →
      Stmt.AllAlike l o (s :: ss) (s' :: ss')

end

/-- Parts with scopes whose frames are of the given sort. -/
structure Region.Alike (l : Likeness) (sort : Bool) (o : Outlook) (r r' : Region) : Prop where
  params : List.Forall₂ (l.Name sort) r.params r'.params
  body : Stmt.AllAlike l (o.enter sort) r.body r'.body

theorem Likeness.Token.mono {l l' : Likeness} (hl : l.Le l') {t t' : TreeWalk.Token}
    (h : l.Token t t') : l'.Token t t' :=
  ⟨h.kind, h.lexeme, hl.line h.line⟩

theorem Likeness.Name.mono {l l' : Likeness} (hl : l.Le l') {sort : Bool}
    {t t' : TreeWalk.Token} (h : l.Name sort t t') : l'.Name sort t t' :=
  ⟨h.kind, hl.spelled h.spelled, hl.line h.line⟩

mutual

theorem Expr.Alike.mono {l l' : Likeness} (hl : l.Le l') {o : Outlook} {e e' : Expr}
    (h : Expr.Alike l o e e') : Expr.Alike l' o e e' := by
  match h with
  | .literal => exact .literal
  | .grouping h => exact .grouping (h.mono hl)
  | .unary hop h => exact .unary (hop.mono hl) (h.mono hl)
  | .binary h hop h' => exact .binary (h.mono hl) (hop.mono hl) (h'.mono hl)
  | .logical h hop h' => exact .logical (h.mono hl) (hop.mono hl) (h'.mono hl)
  | .var hid hname => exact .var (hl.node hid) (hname.mono hl)
  | .assign hid hname h => exact .assign (hl.node hid) (hname.mono hl) (h.mono hl)
  | .call h hparen hes => exact .call (h.mono hl) (hparen.mono hl) (hes.mono hl)

theorem Expr.AllAlike.mono {l l' : Likeness} (hl : l.Le l') {o : Outlook} {es es' : List Expr}
    (h : Expr.AllAlike l o es es') : Expr.AllAlike l' o es es' := by
  match h with
  | .nil => exact .nil
  | .cons h hes => exact .cons (h.mono hl) (hes.mono hl)

end

theorem Expr.OptionAlike.mono {l l' : Likeness} (hl : l.Le l') {o : Outlook}
    {e e' : Option Expr} (h : Expr.OptionAlike l o e e') : Expr.OptionAlike l' o e e' := by
  cases h with
  | none => exact .none
  | some h => exact .some (h.mono hl)

mutual

theorem Stmt.Alike.mono {l l' : Likeness} (hl : l.Le l') {o : Outlook} {s s' : Stmt}
    (h : Stmt.Alike l o s s') : Stmt.Alike l' o s s' := by
  match h with
  | .expression h => exact .expression (h.mono hl)
  | .print h => exact .print (h.mono hl)
  | .declare hname h => exact .declare (hname.mono hl) (h.mono hl)
  | .block sort h => exact .block sort (h.mono hl)
  | .ifThen h hs => exact .ifThen (h.mono hl) (hs.mono hl)
  | .ifElse h hs ht => exact .ifElse (h.mono hl) (hs.mono hl) (ht.mono hl)
  | .whileLoop h hs => exact .whileLoop (h.mono hl) (hs.mono hl)
  | .function sort hname hspelled hparams h =>
    have hparams' := hparams.imp fun _ _ hname => hname.mono hl
    exact .function sort (hname.mono hl) (hl.spelled hspelled) hparams' (h.mono hl)
  | .returnFrom hkeyword h => exact .returnFrom (hkeyword.mono hl) (h.mono hl)

theorem Stmt.AllAlike.mono {l l' : Likeness} (hl : l.Le l') {o : Outlook} {ss ss' : List Stmt}
    (h : Stmt.AllAlike l o ss ss') : Stmt.AllAlike l' o ss ss' := by
  match h with
  | .nil => exact .nil
  | .cons h hss => exact .cons (h.mono hl) (hss.mono hl)

end

theorem Region.Alike.mono {l l' : Likeness} (hl : l.Le l') {sort : Bool} {o : Outlook}
    {r r' : Region} (h : Region.Alike l sort o r r') : Region.Alike l' sort o r r' :=
  ⟨h.params.imp fun _ _ hname => hname.mono hl, h.body.mono hl⟩

/-! A likeness speaks of all variables of trees that are alike. -/

section Nodes

variable {l : Likeness} {i : NodeId}

mutual

theorem Expr.Alike.exists_node {o : Outlook} {e e' : Expr} (h : Expr.Alike l o e e')
    (hi : i ∈ e.ids) : ∃ i' d, l.node i i' d := by
  match h with
  | .literal => cases hi
  | .grouping h | .unary _ h => exact h.exists_node hi
  | .binary h _ h' | .logical h _ h' =>
    exact (List.mem_append.mp hi).elim h.exists_node h'.exists_node
  | .var hid _ =>
    obtain rfl := List.mem_singleton.mp hi
    exact ⟨_, _, hid⟩
  | .assign hid _ h =>
    rcases List.mem_append.mp hi with hi | hi
    · exact h.exists_node hi
    · obtain rfl := List.mem_singleton.mp hi
      exact ⟨_, _, hid⟩
  | .call h _ hes => exact (List.mem_append.mp hi).elim h.exists_node hes.exists_node

theorem Expr.AllAlike.exists_node {o : Outlook} {es es' : List Expr} (h : Expr.AllAlike l o es es')
    (hi : i ∈ Expr.idsOfAll es) : ∃ i' d, l.node i i' d := by
  match h with
  | .nil => cases hi
  | .cons h hes => exact (List.mem_append.mp hi).elim h.exists_node hes.exists_node

end

theorem Expr.OptionAlike.exists_node {o : Outlook} {e e' : Option Expr}
    (h : Expr.OptionAlike l o e e') (hi : i ∈ Expr.idsOfOption e) : ∃ i' d, l.node i i' d := by
  cases h with
  | none => cases hi
  | some h => exact h.exists_node hi

mutual

theorem Stmt.Alike.exists_node {o : Outlook} {s s' : Stmt} (h : Stmt.Alike l o s s')
    (hi : i ∈ s.ids) : ∃ i' d, l.node i i' d := by
  match h with
  | .expression h | .print h => exact h.exists_node hi
  | .declare _ h | .returnFrom _ h => exact h.exists_node hi
  | .block _ h | .function _ _ _ _ h => exact h.exists_node hi
  | .ifThen h hs | .whileLoop h hs =>
    exact (List.mem_append.mp hi).elim h.exists_node hs.exists_node
  | .ifElse h hs ht =>
    rcases List.mem_append.mp hi with hi | hi
    · exact (List.mem_append.mp hi).elim h.exists_node hs.exists_node
    · exact ht.exists_node hi

theorem Stmt.AllAlike.exists_node {o : Outlook} {ss ss' : List Stmt} (h : Stmt.AllAlike l o ss ss')
    (hi : i ∈ Stmt.idsOfAll ss) : ∃ i' d, l.node i i' d := by
  match h with
  | .nil => cases hi
  | .cons h hss => exact (List.mem_append.mp hi).elim h.exists_node hss.exists_node

end

end Nodes

/-! A tree is alike to the same tree with other identities and tokens. -/

section Tokens

variable {l : Likeness} {f : NodeId → NodeId} {g : Token → Token}

mutual

theorem Expr.alike_map (htoken : ∀ t, l.Token t (g t)) {e : Expr}
    (hid : ∀ id ∈ e.ids, ∃ d, l.node id (f id) d)
    (hname : ∀ t, t.lexeme ∈ e.names → l.Name false t (g t)) :
    Expr.Alike l .plain e (e.map f g) := by
  match e with
  | .literal _ => exact .literal
  | .grouping inner => exact .grouping (Expr.alike_map htoken hid hname)
  | .unary operator right =>
    exact .unary (htoken operator) (Expr.alike_map htoken hid hname)
  | .binary left operator right =>
    simp only [ids, names, List.mem_append] at hid hname
    exact .binary
      (Expr.alike_map htoken (fun i hi => hid i (.inl hi)) fun t ht => hname t (.inl ht))
      (htoken operator)
      (Expr.alike_map htoken (fun i hi => hid i (.inr hi)) fun t ht => hname t (.inr ht))
  | .logical left operator right =>
    simp only [ids, names, List.mem_append] at hid hname
    exact .logical
      (Expr.alike_map htoken (fun i hi => hid i (.inl hi)) fun t ht => hname t (.inl ht))
      (htoken operator)
      (Expr.alike_map htoken (fun i hi => hid i (.inr hi)) fun t ht => hname t (.inr ht))
  | .var id name =>
    obtain ⟨d, hd⟩ := hid id (by simp [ids])
    refine .var hd ?_
    rw [Outlook.sortAt_plain]
    exact hname name (by simp [names])
  | .assign id name value =>
    obtain ⟨d, hd⟩ := hid id (by simp [ids])
    refine .assign hd ?_ (Expr.alike_map htoken
      (fun i hi => hid i (by simp [ids, hi])) fun t ht => hname t (by simp [names, ht]))
    rw [Outlook.sortAt_plain]
    exact hname name (by simp [names])
  | .call callee paren arguments =>
    simp only [ids, names, List.mem_append] at hid hname
    exact .call
      (Expr.alike_map htoken (fun i hi => hid i (.inl hi)) fun t ht => hname t (.inl ht))
      (htoken paren)
      (Expr.allAlike_map htoken (fun i hi => hid i (.inr hi))
        fun t ht => hname t (.inr ht))

theorem Expr.allAlike_map (htoken : ∀ t, l.Token t (g t)) {es : List Expr}
    (hid : ∀ id ∈ Expr.idsOfAll es, ∃ d, l.node id (f id) d)
    (hname : ∀ t, t.lexeme ∈ Expr.namesOfAll es → l.Name false t (g t)) :
    Expr.AllAlike l .plain es (Expr.mapAll f g es) := by
  match es with
  | [] => exact .nil
  | e :: es =>
    simp only [idsOfAll, namesOfAll, List.mem_append] at hid hname
    exact .cons
      (Expr.alike_map htoken (fun i hi => hid i (.inl hi)) fun t ht => hname t (.inl ht))
      (Expr.allAlike_map htoken (fun i hi => hid i (.inr hi))
        fun t ht => hname t (.inr ht))

end

theorem Expr.optionAlike_map (htoken : ∀ t, l.Token t (g t)) {e : Option Expr}
    (hid : ∀ id ∈ Expr.idsOfOption e, ∃ d, l.node id (f id) d)
    (hname : ∀ t, t.lexeme ∈ Expr.namesOfOption e → l.Name false t (g t)) :
    Expr.OptionAlike l .plain e (e.map (Expr.map f g)) := by
  cases e with
  | none => exact .none
  | some e => exact .some (Expr.alike_map htoken hid hname)

mutual

theorem Stmt.alike_map (htoken : ∀ t, l.Token t (g t)) {s : Stmt}
    (hid : ∀ id ∈ s.ids, ∃ d, l.node id (f id) d)
    (hname : ∀ t, t.lexeme ∈ s.names → l.Name false t (g t)) :
    Stmt.Alike l .plain s (s.map f g) := by
  match s with
  | .expression _ => exact .expression (Expr.alike_map htoken hid hname)
  | .print _ => exact .print (Expr.alike_map htoken hid hname)
  | .declare name _ =>
    simp only [names, List.mem_cons] at hname
    exact .declare (hname name (.inl rfl))
      (Expr.optionAlike_map htoken hid fun t ht => hname t (.inr ht))
  | .block _ =>
    refine .block false ?_
    rw [Outlook.enter_plain]
    exact Stmt.allAlike_map htoken hid hname
  | .ifThen _ _ =>
    simp only [ids, names, List.mem_append] at hid hname
    exact .ifThen
      (Expr.alike_map htoken (fun i hi => hid i (.inl hi)) fun t ht => hname t (.inl ht))
      (Stmt.alike_map htoken (fun i hi => hid i (.inr hi)) fun t ht => hname t (.inr ht))
  | .ifElse _ _ _ =>
    simp only [ids, names, List.mem_append] at hid hname
    exact .ifElse
      (Expr.alike_map htoken (fun i hi => hid i (.inl (.inl hi)))
        fun t ht => hname t (.inl (.inl ht)))
      (Stmt.alike_map htoken (fun i hi => hid i (.inl (.inr hi)))
        fun t ht => hname t (.inl (.inr ht)))
      (Stmt.alike_map htoken (fun i hi => hid i (.inr hi)) fun t ht => hname t (.inr ht))
  | .whileLoop _ _ =>
    simp only [ids, names, List.mem_append] at hid hname
    exact .whileLoop
      (Expr.alike_map htoken (fun i hi => hid i (.inl hi)) fun t ht => hname t (.inl ht))
      (Stmt.alike_map htoken (fun i hi => hid i (.inr hi)) fun t ht => hname t (.inr ht))
  | .function name params _ =>
    simp only [names, List.mem_append, List.mem_cons, List.mem_map] at hname
    refine .function false (htoken name) (hname name (.inl (.inl rfl))).spelled ?_ ?_
    · refine List.forall₂_map_right_iff.mpr (List.forall₂_same.mpr fun t ht => ?_)
      exact hname t (.inl (.inr ⟨t, ht, rfl⟩))
    · rw [Outlook.enter_plain]
      exact Stmt.allAlike_map htoken hid fun t ht => hname t (.inr ht)
  | .returnFrom keyword _ =>
    exact .returnFrom (htoken keyword) (Expr.optionAlike_map htoken hid hname)

theorem Stmt.allAlike_map (htoken : ∀ t, l.Token t (g t)) {ss : List Stmt}
    (hid : ∀ id ∈ Stmt.idsOfAll ss, ∃ d, l.node id (f id) d)
    (hname : ∀ t, t.lexeme ∈ Stmt.namesOfAll ss → l.Name false t (g t)) :
    Stmt.AllAlike l .plain ss (Stmt.mapAll f g ss) := by
  match ss with
  | [] => exact .nil
  | s :: ss =>
    simp only [idsOfAll, namesOfAll, List.mem_append] at hid hname
    exact .cons
      (Stmt.alike_map htoken (fun i hi => hid i (.inl hi)) fun t ht => hname t (.inl ht))
      (Stmt.allAlike_map htoken (fun i hi => hid i (.inr hi))
        fun t ht => hname t (.inr ht))

end

theorem Expr.alike_self (hline : ∀ n, l.line n n) {e : Expr}
    (hspelled : ∀ n ∈ e.names, l.spelled false n n) (hid : ∀ id ∈ e.ids, ∃ d, l.node id id d) :
    Expr.Alike l .plain e e := by
  have halike : Expr.Alike l .plain e (e.map id id) :=
    Expr.alike_map (fun _ => ⟨rfl, rfl, hline _⟩) hid fun _ ht => ⟨rfl, hspelled _ ht, hline _⟩
  rwa [Expr.map_id] at halike

theorem Stmt.alike_self (hline : ∀ n, l.line n n) {s : Stmt}
    (hspelled : ∀ n ∈ s.names, l.spelled false n n) (hid : ∀ id ∈ s.ids, ∃ d, l.node id id d) :
    Stmt.Alike l .plain s s := by
  have halike : Stmt.Alike l .plain s (s.map id id) :=
    Stmt.alike_map (fun _ => ⟨rfl, rfl, hline _⟩) hid fun _ ht => ⟨rfl, hspelled _ ht, hline _⟩
  rwa [Stmt.map_id] at halike

theorem Stmt.allAlike_self (hline : ∀ n, l.line n n) {ss : List Stmt}
    (hspelled : ∀ n ∈ Stmt.namesOfAll ss, l.spelled false n n)
    (hid : ∀ id ∈ Stmt.idsOfAll ss, ∃ d, l.node id id d) : Stmt.AllAlike l .plain ss ss := by
  have halike : Stmt.AllAlike l .plain ss (Stmt.mapAll id id ss) :=
    Stmt.allAlike_map (fun _ => ⟨rfl, rfl, hline _⟩) hid fun _ ht => ⟨rfl, hspelled _ ht, hline _⟩
  rwa [Stmt.mapAll_id] at halike

end Tokens

end TreeWalk
