import TreeWalk.Proofs.Grammar.Confinement
import TreeWalk.Proofs.Grammar.LineBlind
import TreeWalk.Proofs.Resolution.Faults

/-! Where the variables of a parsed expression are read in the text: at some of the tokens that were
taken for the expression, in their order, and at the same ones whatever their lines. -/

namespace TreeWalk

variable {ι : Type} {base : ι → Token}

/-- The tokens at some of the indices taken, in the same order. -/
def Token.InOrder (base : ι → Token) (taken : List ι) (ts : (ι → Nat) → List Token) : Prop :=
  ∃ marks : List ι, marks.Sublist taken ∧
    ∀ lines, ts lines = marks.map fun i => (base i).onLine (lines i)

namespace Token.InOrder

variable {taken later : List ι} {ts ts' : (ι → Nat) → List Token}

theorem nil : InOrder base taken fun _ => [] :=
  ⟨[], List.nil_sublist taken, fun _ => rfl⟩

theorem append (h : InOrder base taken ts) (h' : InOrder base later ts') :
    InOrder base (taken ++ later) fun lines => ts lines ++ ts' lines := by
  obtain ⟨marks, hsub, hts⟩ := h
  obtain ⟨marks', hsub', hts'⟩ := h'
  exact ⟨marks ++ marks', hsub.append hsub', fun lines => by simp only [hts, hts', List.map_append]⟩

theorem weaken (h : InOrder base taken ts) {taken' : List ι} (hsub : taken.Sublist taken') :
    InOrder base taken' ts := by
  obtain ⟨marks, hmarks, hts⟩ := h
  exact ⟨marks, hmarks.trans hsub, hts⟩

end Token.InOrder

/-- An expression whose variables are read from the tokens taken. Whether it is a variable does not
depend on the lines. -/
structure Expr.Traced (base : ι → Token) (taken : List ι) (e : (ι → Nat) → Expr) : Prop where
  reads : Token.InOrder base taken fun lines => (e lines).reads
  shape : (∀ lines, ∃ id name, e lines = .var id name) ∨ ∀ lines id name, e lines ≠ .var id name

namespace Expr.Traced

variable {taken : List ι} {e : (ι → Nat) → Expr}

theorem weaken (h : Traced base taken e) {taken' : List ι} (hsub : taken.Sublist taken') :
    Traced base taken' e :=
  ⟨h.reads.weaken hsub, h.shape⟩

/-- What is put around an expression that reads the same. -/
theorem of_reads (h : Token.InOrder base taken fun lines => (e lines).reads)
    {e' : (ι → Nat) → Expr} (hsame : ∀ lines, (e' lines).reads = (e lines).reads)
    (hshape : ∀ lines id name, e' lines ≠ .var id name) : Traced base taken e' := by
  refine ⟨?_, Or.inr hshape⟩
  simpa only [hsame] using h

end Expr.Traced

namespace Rule

section Expressions

theorem leftAssocFrom_traces {build : Expr → Token → Expr → Expr} {isOperator : Token → Bool}
    {operand : Rule Expr} (ho : Traces base (Expr.Traced base) fun _ => operand)
    (hp : Lineless isOperator)
    (hreads : ∀ left t right, (build left t right).reads = left.reads ++ right.reads)
    (hshape : ∀ left t right id name, build left t right ≠ .var id name)
    (bound : Nat) {taken : List ι} {left : (ι → Nat) → Expr} (hleft : Expr.Traced base taken left) :
    Traces base (fun later e => Expr.Traced base (taken ++ later) e)
      fun lines => leftAssocFrom build isOperator operand bound (left lines) := by
  induction bound generalizing taken left with
  | zero => exact .pure (hleft.weaken (List.sublist_append_left ..))
  | succ bound ih =>
    simp only [leftAssocFrom]
    refine (accept?_traces hp).bind fun first o ho' => ?_
    rcases ho' with ⟨-, rfl⟩ | ⟨i, rfl, rfl⟩
    · exact .pure (hleft.weaken (List.sublist_append_left ..))
    · refine ho.bind fun second right hright => ?_
      have hbuilt : Expr.Traced base (taken ++ ([i] ++ second)) fun lines =>
          build (left lines) ((base i).onLine (lines i)) (right lines) := by
        have hafter := hright.reads.weaken (List.sublist_append_right [i] second)
        refine ⟨?_, Or.inr fun lines => hshape _ _ _⟩
        simpa only [hreads] using hleft.reads.append hafter
      simpa only [List.append_assoc] using ih hbuilt

theorem leftAssoc_traces {build : Expr → Token → Expr → Expr} {isOperator : Token → Bool}
    {operand : Rule Expr} (ho : Traces base (Expr.Traced base) fun _ => operand)
    (hp : Lineless isOperator)
    (hreads : ∀ left t right, (build left t right).reads = left.reads ++ right.reads)
    (hshape : ∀ left t right id name, build left t right ≠ .var id name) :
    Traces base (Expr.Traced base) fun _ => leftAssoc build isOperator operand := by
  unfold leftAssoc
  refine ho.bind fun taken left hleft => ?_
  have hrest (bound : Nat) := leftAssocFrom_traces ho hp hreads hshape bound hleft
  exact .length_bind hrest

variable {expression : Rule Expr}

/-- Which kind of primary comes next, its first token tells wherever it stands. -/
theorem primary_traces (he : Traces base (Expr.Traced base) fun _ => expression) :
    Traces base (Expr.Traced base) fun _ => primary expression := by
  intro indices
  cases indices with
  | nil =>
    -- Nothing is left but the mark of the end, which begins no primary on any line.
    have hfails : TracesFrom base [] (Expr.Traced base) fun _ =>
        (fail (.expected .expression) : Rule Expr) := .fail
    refine hfails.congr fun s hs lines => ?_
    have hkind : (s lines).stop.kind = .eof := Token.isEnd_iff.mp (hs.stop lines)
    have hconstant : (s lines).stop.constant? = none := by rw [Token.constant?, hkind]; rfl
    have hname : (s lines).stop.isIdentifier = false := by
      rw [Bool.eq_false_iff, ne_eq, Token.isIdentifier_iff, hkind]
      simp
    have hparen : (s lines).stop.isPunctuator .leftParen = false :=
      Token.isPunctuator_eq_false (by simp [hkind])
    rw [← hs.head_nil] at hconstant hname hparen
    rw [primary_of_no_constant hconstant, hname, hparen]
    rfl
  | cons i rest =>
    -- The kind of the next token does not depend on its line, so the branch is the same for all.
    have hsame (lines : ι → Nat) : ((base i).onLine (lines i)).constant? = (base i).constant? := rfl
    cases hconstant : (base i).constant? with
    | some value =>
      have hvalue : Expr.Traced base [i] fun _ => Expr.literal value :=
        ⟨.nil, Or.inr fun _ _ _ => by simp⟩
      have hskip : TracesFrom base (i :: rest) (Expr.Traced base) fun _ =>
          skip >>= fun _ => pure (Expr.literal value) := by
        refine TracesFrom.skip.bind fun taken _ htaken => .pure ?_
        rw [htaken]
        exact hvalue
      refine hskip.congr fun s hs lines => primary_of_constant ?_
      rw [hs.head_cons, hsame, hconstant]
    | none =>
      have hread : Token.InOrder base [i] fun lines => [(base i).onLine (lines i)] :=
        ⟨[i], List.Sublist.refl _, fun _ => rfl⟩
      have hname : TracesFrom base (i :: rest) (Expr.Traced base) fun lines =>
          skip >>= fun _ => freshId >>= fun id =>
            pure (Expr.var id ((base i).onLine (lines i))) := by
        refine TracesFrom.skip.bind fun taken _ htaken => ?_
        refine Traces.freshId.bind fun none id hnone => .pure ?_
        subst htaken hnone
        exact ⟨hread, Or.inl fun lines => ⟨_, _, rfl⟩⟩
      have hgrouping : TracesFrom base (i :: rest) (Expr.Traced base) fun _ =>
          skip >>= fun _ => expression >>= fun inner =>
            discard (expect (·.isPunctuator .rightParen) .parenAfterExpression) >>= fun _ =>
              pure (Expr.grouping inner) := by
        refine TracesFrom.skip.bind fun taken _ htaken => he.bind fun later inner hinner => ?_
        refine (expect_traces fun _ _ => rfl).discard.bind fun closing _ _ => .pure ?_
        refine .of_reads (hinner.reads.weaken ?_) (fun _ => rfl) fun _ _ _ => by simp
        rw [List.append_nil]
        exact (List.sublist_append_left later closing).trans (List.sublist_append_right taken _)
      have hchosen : TracesFrom base (i :: rest) (Expr.Traced base) fun lines =>
          if (base i).isIdentifier then
            skip >>= fun _ => freshId >>= fun id => pure (Expr.var id ((base i).onLine (lines i)))
          else if (base i).isPunctuator .leftParen then
            skip >>= fun _ => expression >>= fun inner =>
              discard (expect (·.isPunctuator .rightParen) .parenAfterExpression) >>= fun _ =>
                pure (Expr.grouping inner)
          else fail (.expected .expression) := by
        split
        · exact hname
        · split
          · exact hgrouping
          · exact .fail
      refine hchosen.congr fun s hs lines => ?_
      have hhead := hs.head_cons lines
      have hnone : (s lines).head.constant? = none := by rw [hhead, hsame, hconstant]
      rw [primary_of_no_constant hnone, hhead]
      rfl

/-- Arguments whose variables are read from the tokens taken. -/
abbrev ArgumentsTraced (base : ι → Token) (taken : List ι) (args : (ι → Nat) → List Expr) : Prop :=
  Token.InOrder base taken fun lines => Expr.readsOfAll (args lines)

theorem arguments_traces (he : Traces base (Expr.Traced base) fun _ => expression) :
    Traces base (fun taken a => ArgumentsTraced base taken fun lines => (a lines).1)
      fun _ => arguments expression := by
  unfold arguments
  refine (sees_traces fun _ _ => rfl).bind fun taken yes hyes => ?_
  obtain ⟨rfl, b, rfl⟩ := hyes
  have hclose {args : (ι → Nat) → List Expr} {taken : List ι}
      (hargs : ArgumentsTraced base taken args) :
      Traces base (fun later a => ArgumentsTraced base (taken ++ later) fun lines => (a lines).1)
        fun lines => expect (·.isPunctuator .rightParen) .parenAfterArguments >>= fun t =>
          pure (args lines, t) := by
    refine (expect_traces fun _ _ => rfl).bind fun later t ht => .pure ?_
    exact hargs.weaken (List.sublist_append_left ..)
  have hempty : Traces base (ArgumentsTraced base) fun _ => (pure [] : Rule (List Expr)) :=
    .pure .nil
  have hfull : Traces base (ArgumentsTraced base) fun _ =>
      commaSeparated .tooManyArguments expression := by
    refine commaSeparated_traces he (fun taken a ha => ?_) (fun taken comma as has => ?_)
      fun taken later as a has ha => ?_
    · have hone (e : Expr) : Expr.readsOfAll [e] = e.reads := List.append_nil _
      simpa only [ArgumentsTraced, hone] using ha.reads
    · exact has.weaken (List.sublist_append_left ..)
    · have hone (e : Expr) : Expr.readsOfAll [e] = e.reads := List.append_nil _
      simpa only [ArgumentsTraced, Expr.readsOfAll_append, hone] using has.append ha.reads
  cases b with
  | true => exact hempty.bind fun taken args hargs => hclose hargs
  | false => exact hfull.bind fun taken args hargs => hclose hargs

theorem callsFrom_traces (he : Traces base (Expr.Traced base) fun _ => expression) (bound : Nat)
    {taken : List ι} {callee : (ι → Nat) → Expr} (hcallee : Expr.Traced base taken callee) :
    Traces base (fun later e => Expr.Traced base (taken ++ later) e)
      fun lines => callsFrom expression bound (callee lines) := by
  induction bound generalizing taken callee with
  | zero => exact .pure (hcallee.weaken (List.sublist_append_left ..))
  | succ bound ih =>
    simp only [callsFrom]
    refine (accepts_traces fun _ _ => rfl).bind fun paren yes hyes => ?_
    obtain ⟨b, rfl⟩ := hyes
    cases b with
    | false => exact .pure (hcallee.weaken (List.sublist_append_left ..))
    | true =>
      refine (arguments_traces he).bind fun later a hargs => ?_
      have hcall : Expr.Traced base (taken ++ (paren ++ later)) fun lines =>
          .call (callee lines) (a lines).2 (a lines).1 := by
        have hafter := hargs.weaken (List.sublist_append_right paren later)
        exact ⟨hcallee.reads.append hafter, Or.inr fun _ _ _ => nofun⟩
      simpa only [List.append_assoc] using ih hcall

theorem call_traces (he : Traces base (Expr.Traced base) fun _ => expression) :
    Traces base (Expr.Traced base) fun _ => call expression := by
  unfold call
  refine (primary_traces he).bind fun taken callee hcallee => ?_
  have hrest (bound : Nat) := callsFrom_traces he bound hcallee
  exact .length_bind hrest

theorem unary_traces (he : Traces base (Expr.Traced base) fun _ => expression) :
    Traces base (Expr.Traced base) fun _ => unary expression := by
  unfold unary
  refine (acceptWhile_traces fun _ _ => rfl).bind fun signs operators hoperators => ?_
  refine (call_traces he).bind fun taken operand hoperand => .pure ?_
  rw [List.append_nil]
  refine ⟨?_, ?_⟩
  · simp only [Expr.reads_foldr_unary]
    exact hoperand.reads.weaken (List.sublist_append_right ..)
  · -- Whether there is a sign does not depend on the lines.
    cases signs with
    | nil =>
      have hnone (lines : ι → Nat) : operators lines = [] :=
        List.length_eq_zero_iff.mp (hoperators lines)
      simpa only [hnone, List.foldr_nil] using hoperand.shape
    | cons sign signs =>
      refine Or.inr fun lines id name => ?_
      have hlength := hoperators lines
      cases hsigns : operators lines with
      | nil =>
        rw [hsigns] at hlength
        cases hlength
      | cons operator rest => nofun

theorem disjunction_traces (he : Traces base (Expr.Traced base) fun _ => expression) :
    Traces base (Expr.Traced base) fun _ => disjunction expression := by
  have hbinary (left : Expr) (t : Token) (right : Expr) :
      (Expr.binary left t right).reads = left.reads ++ right.reads := rfl
  have hbinary' (left : Expr) (t : Token) (right : Expr) (id : NodeId) (name : Token) :
      Expr.binary left t right ≠ .var id name := nofun
  have hlogical (left : Expr) (t : Token) (right : Expr) :
      (Expr.logical left t right).reads = left.reads ++ right.reads := rfl
  have hlogical' (left : Expr) (t : Token) (right : Expr) (id : NodeId) (name : Token) :
      Expr.logical left t right ≠ .var id name := nofun
  have hfactor : Traces base (Expr.Traced base) fun _ => factor expression :=
    leftAssoc_traces (unary_traces he) (fun _ _ => rfl) hbinary hbinary'
  have hterm : Traces base (Expr.Traced base) fun _ => term expression :=
    leftAssoc_traces hfactor (fun _ _ => rfl) hbinary hbinary'
  have hcomparison : Traces base (Expr.Traced base) fun _ => comparison expression :=
    leftAssoc_traces hterm (fun _ _ => rfl) hbinary hbinary'
  have hequality : Traces base (Expr.Traced base) fun _ => equality expression :=
    leftAssoc_traces hcomparison (fun _ _ => rfl) hbinary hbinary'
  have hconjunction : Traces base (Expr.Traced base) fun _ => conjunction expression :=
    leftAssoc_traces hequality (fun _ _ => rfl) hlogical hlogical'
  exact leftAssoc_traces hconjunction (fun _ _ => rfl) hlogical hlogical'

/-- The value of an assignment to something else than a variable is dropped. -/
theorem assignTo_of_not_var (expression : Rule Expr) {target : Expr}
    (h : ∀ id name, target ≠ .var id name) (equals : Token) : assignTo expression target equals =
      expression >>= fun _ => modify (·.report (.syntactic equals .invalidAssignmentTarget)) >>=
        fun _ => pure target := by
  cases target with
  | var id name => exact absurd rfl (h id name)
  | _ => rfl

theorem assignTo_traces (he : Traces base (Expr.Traced base) fun _ => expression)
    {taken : List ι} {target : (ι → Nat) → Expr} (htarget : Expr.Traced base taken target)
    (equals : (ι → Nat) → Token) :
    Traces base (fun later e => Expr.Traced base (taken ++ later) e)
      fun lines => assignTo expression (target lines) (equals lines) := by
  rcases htarget.shape with hvar | hother
  · choose id name hsame using hvar
    simp only [hsame, assignTo]
    refine he.bind fun later value hvalue => Traces.freshId.bind fun none id' hnone => .pure ?_
    subst hnone
    have hassign : Expr.Traced base later fun lines =>
        .assign (id' lines) (name lines) (value lines) :=
      .of_reads hvalue.reads (fun _ => rfl) fun _ => nofun
    simpa only [List.append_nil] using hassign.weaken (List.sublist_append_right taken later)
  · have hdrop (lines : ι → Nat) :=
      assignTo_of_not_var expression (hother lines) (equals lines)
    simp only [hdrop]
    refine he.bind fun later value _ => ?_
    refine (modify_report_traces fun lines _ => .syntactic (equals lines)
      .invalidAssignmentTarget).bind fun none _ hnone => .pure ?_
    exact htarget.weaken (List.sublist_append_left ..)

theorem assignment_traces (he : Traces base (Expr.Traced base) fun _ => expression) :
    Traces base (Expr.Traced base) fun _ => assignment expression := by
  unfold assignment
  refine (disjunction_traces he).bind fun taken target htarget => ?_
  refine (accept?_traces fun _ _ => rfl).bind fun equals o ho => ?_
  rcases ho with ⟨-, rfl⟩ | ⟨i, rfl, rfl⟩
  · exact .pure (htarget.weaken (List.sublist_append_left ..))
  · have hmore := htarget.weaken (List.sublist_append_left taken [i])
    simpa only [List.append_assoc] using assignTo_traces he hmore _

theorem expressionUpTo_traces (depth : Nat) :
    Traces base (Expr.Traced base) fun _ => expressionUpTo depth := by
  induction depth with
  | zero => exact .fail
  | succ depth ih => exact assignment_traces ih

theorem expression_traces : Traces base (Expr.Traced base) fun _ => Rule.expression := by
  intro indices s hs
  have hsame (lines : ι → Nat) : Rule.expression (s lines) =
      expressionUpTo (indices.length + 1) (s lines) := by
    rw [Rule.expression, hs.length]
  simp only [hsame]
  exact expressionUpTo_traces _ indices s hs

end Expressions

end Rule

end TreeWalk
