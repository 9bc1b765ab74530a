import Mathlib.Data.List.FinRange
import TreeWalk.Proofs.Grammar.ReadOrder
import TreeWalk.Proofs.Program.Accepted

/-! Where the faults of a parsed program are in the text. The tree of a loop has the increment
behind the body, and what does not parse leaves no trace, and still the reports of the resolver are
at tokens of the text in their order. -/

namespace TreeWalk

variable {ι : Type} {base : ι → Token}

/-- Reports at some of the indices taken, in the same order. -/
def Diagnostic.InOrder (base : ι → Token) (taken : List ι) (ds : (ι → Nat) → List Diagnostic) :
    Prop :=
  ∃ marks : List (ι × ScopingCause), (marks.map Prod.fst).Sublist taken ∧
    ∀ lines, ds lines = marks.map fun m => .scoping ((base m.1).onLine (lines m.1)) m.2

namespace Diagnostic.InOrder

variable {taken later : List ι} {ds ds' : (ι → Nat) → List Diagnostic}

theorem nil : InOrder base taken fun _ => [] :=
  ⟨[], List.nil_sublist taken, fun _ => rfl⟩

theorem append (h : InOrder base taken ds) (h' : InOrder base later ds') :
    InOrder base (taken ++ later) fun lines => ds lines ++ ds' lines := by
  obtain ⟨marks, hsub, hds⟩ := h
  obtain ⟨marks', hsub', hds'⟩ := h'
  refine ⟨marks ++ marks', ?_, fun lines => by simp only [hds, hds', List.map_append]⟩
  rw [List.map_append]
  exact hsub.append hsub'

theorem weaken (h : InOrder base taken ds) {taken' : List ι} (hsub : taken.Sublist taken') :
    InOrder base taken' ds := by
  obtain ⟨marks, hmarks, hds⟩ := h
  exact ⟨marks, hmarks.trans hsub, hds⟩

end Diagnostic.InOrder

/-- Reads that are reported for their spelling. -/
theorem Token.InOrder.misreads {taken : List ι} {ts : (ι → Nat) → List Token}
    (h : Token.InOrder base taken ts) (test : String → Bool) :
    Diagnostic.InOrder base taken fun lines =>
      Token.misreads (ts lines) fun t => test t.lexeme := by
  obtain ⟨marks, hsub, hts⟩ := h
  refine ⟨(marks.filter fun i => test (base i).lexeme).map fun i => (i, .ownInitializer), ?_,
    fun lines => ?_⟩
  · have hsame : (Prod.fst ∘ fun i : ι => (i, ScopingCause.ownInitializer)) = id := rfl
    rw [List.map_map, hsame, List.map_id]
    exact List.filter_sublist.trans hsub
  · have hsame : ((fun t : Token => test t.lexeme) ∘ fun i => (base i).onLine (lines i)) =
        fun i => test (base i).lexeme := rfl
    simp only [Token.misreads, hts, List.filter_map, hsame, List.map_map]
    rfl

/-- What may be missing, for all lines or for none. -/
def OptionTraced {α : Type} (q : List ι → ((ι → Nat) → α) → Prop) (taken : List ι)
    (o : (ι → Nat) → Option α) : Prop :=
  (o = fun _ => none) ∨ ∃ a, (o = fun lines => some (a lines)) ∧ q taken a

/-- A statement whose faults, wherever it stands, are at tokens taken. -/
structure Stmt.Traced (base : ι → Token) (taken : List ι) (s : (ι → Nat) → Stmt) : Prop where
  faults : ∀ inFunction inScope,
    Diagnostic.InOrder base taken fun lines => (s lines).faults inFunction inScope
  regular : ∀ lines, (s lines).Regular

/-- One that may be a branch or the body of a loop. -/
structure Stmt.BranchTraced (base : ι → Token) (taken : List ι) (s : (ι → Nat) → Stmt) : Prop
    extends Stmt.Traced base taken s where
  plain : ∀ lines, (s lines).isDeclaration = false

structure Stmt.AllTraced (base : ι → Token) (taken : List ι) (ss : (ι → Nat) → List Stmt) :
    Prop where
  faults : ∀ inFunction inScope,
    Diagnostic.InOrder base taken fun lines => Stmt.faultsOfAll inFunction inScope (ss lines)
  regular : ∀ lines, Stmt.AllRegular (ss lines)

namespace Stmt

variable {taken taken' later : List ι} {s s' : (ι → Nat) → Stmt} {ss : (ι → Nat) → List Stmt}

theorem Traced.weaken (h : Traced base taken s) (hsub : taken.Sublist taken') :
    Traced base taken' s :=
  ⟨fun inFunction inScope => (h.faults inFunction inScope).weaken hsub, h.regular⟩

theorem BranchTraced.weaken (h : BranchTraced base taken s) (hsub : taken.Sublist taken') :
    BranchTraced base taken' s :=
  ⟨h.toTraced.weaken hsub, h.plain⟩

theorem AllTraced.nil : AllTraced base taken fun _ => [] :=
  ⟨fun _ _ => .nil, fun _ => trivial⟩

theorem Traced.cons (h : Traced base taken s) (hs : AllTraced base later ss) :
    AllTraced base (taken ++ later) fun lines => s lines :: ss lines :=
  ⟨fun inFunction inScope => (h.faults inFunction inScope).append (hs.faults inFunction inScope),
    fun lines => ⟨h.regular lines, hs.regular lines⟩⟩

theorem AllTraced.weaken (h : AllTraced base taken ss) (hsub : taken.Sublist taken') :
    AllTraced base taken' ss :=
  ⟨fun inFunction inScope => (h.faults inFunction inScope).weaken hsub, h.regular⟩

/-- A statement with nothing to report. -/
theorem BranchTraced.quiet (hfaults : ∀ lines inFunction inScope,
      (s lines).faults inFunction inScope = [])
    (hregular : ∀ lines, (s lines).Regular) (hplain : ∀ lines, (s lines).isDeclaration = false) :
    BranchTraced base taken s := by
  refine ⟨⟨fun inFunction inScope => ?_, hregular⟩, hplain⟩
  simp only [hfaults]
  exact .nil

theorem BranchTraced.block (h : AllTraced base taken ss) :
    BranchTraced base taken fun lines => .block (ss lines) :=
  ⟨⟨fun inFunction _ => h.faults inFunction true, h.regular⟩, fun _ => rfl⟩

theorem BranchTraced.whileLoop (h : BranchTraced base taken s) (condition : (ι → Nat) → Expr) :
    BranchTraced base taken fun lines => .whileLoop (condition lines) (s lines) :=
  ⟨⟨h.faults, fun lines => ⟨h.plain lines, h.regular lines⟩⟩, fun _ => rfl⟩

/-- The increment has nothing to report, so it does not matter that it stands behind the body. -/
theorem BranchTraced.forLoop {initializer : (ι → Nat) → Option Stmt}
    {condition increment : (ι → Nat) → Option Expr} {q : List ι → ((ι → Nat) → Expr) → Prop}
    (hinitializer : OptionTraced (Traced base) taken initializer)
    (hincrement : OptionTraced q taken' increment) (hbody : BranchTraced base later s) :
    BranchTraced base (taken ++ later) fun lines =>
      .forLoop (initializer lines) (condition lines) (increment lines) (s lines) := by
  have hlast : AllTraced base ([] : List ι) fun _ => [] := .nil
  have hround : ∃ round, BranchTraced base later round ∧ ∀ lines,
      Stmt.forLoop (initializer lines) (condition lines) (increment lines) (s lines) =
        .forLoop (initializer lines) (condition lines) none (round lines) := by
    rcases hincrement with rfl | ⟨e, rfl, -⟩
    · exact ⟨s, hbody, fun _ => rfl⟩
    · have hquiet : BranchTraced base [] fun lines => .expression (e lines) :=
        .quiet (fun _ _ _ => rfl) (fun _ => by trivial) fun _ => rfl
      have hblock := BranchTraced.block (hbody.toTraced.cons (hquiet.toTraced.cons hlast))
      rw [List.append_nil, List.append_nil] at hblock
      exact ⟨_, hblock, fun _ => rfl⟩
  obtain ⟨round, hround, hsame⟩ := hround
  simp only [hsame]
  have hloop := hround.whileLoop fun lines => (condition lines).getD (.literal (.bool true))
  rcases hinitializer with rfl | ⟨first, rfl, hfirst⟩
  · exact hloop.weaken (List.sublist_append_right ..)
  · have hblock := BranchTraced.block (hfirst.cons (hloop.toTraced.cons hlast))
    rw [List.append_nil] at hblock
    exact hblock

end Stmt

namespace Rule

section Statements

/-- What is not a report needs no trace. -/
abbrev Any {α : Type} (_ : List ι) (_ : (ι → Nat) → α) : Prop :=
  True

theorem expect_any {p : Token → Bool} (hp : Lineless p) {what : Expectation} :
    Traces base Any fun _ => discard (expect p what) :=
  (expect_traces hp).discard

theorem expressionStatement_traces :
    Traces base (Stmt.BranchTraced base) fun _ => expressionStatement := by
  unfold expressionStatement
  refine expression_traces.bind fun taken e _ => (expect_any fun _ _ => rfl).bind fun _ _ _ => ?_
  exact .pure (.quiet (fun _ _ _ => rfl) (fun _ => by trivial) fun _ => rfl)

theorem printStatement_traces : Traces base (Stmt.BranchTraced base) fun _ => printStatement := by
  unfold printStatement
  refine expression_traces.bind fun taken e _ => (expect_any fun _ _ => rfl).bind fun _ _ _ => ?_
  exact .pure (.quiet (fun _ _ _ => rfl) (fun _ => by trivial) fun _ => rfl)

theorem optionalExpression_traces (closing : Punctuator) :
    Traces base (OptionTraced (Expr.Traced base)) fun _ => optionalExpression closing := by
  unfold optionalExpression
  refine (sees_traces fun _ _ => rfl).bind fun taken yes hyes => ?_
  obtain ⟨rfl, b, rfl⟩ := hyes
  refine .ite (.pure (Or.inl rfl)) ?_
  refine expression_traces.bind fun taken e he => .pure (Or.inr ⟨e, rfl, ?_⟩)
  rw [List.append_nil]
  exact he

/-- A `return` may be reported at its keyword. -/
theorem returnStatement_traces (i : ι) :
    Traces base (fun later s => Stmt.BranchTraced base (i :: later) s)
      fun lines => returnStatement ((base i).onLine (lines i)) := by
  unfold returnStatement
  refine (optionalExpression_traces _).bind fun taken value _ => ?_
  refine (expect_any fun _ _ => rfl).bind fun _ _ _ => .pure ⟨⟨fun inFunction _ => ?_, fun _ => ?_⟩,
    fun _ => rfl⟩
  · cases inFunction with
    | true => exact .nil
    | false => exact ⟨[(i, .topLevelReturn)], List.singleton_sublist.mpr List.mem_cons_self,
        fun _ => rfl⟩
  · trivial

theorem variableDeclaration_traces :
    Traces base (Stmt.Traced base) fun _ => variableDeclaration := by
  unfold variableDeclaration
  refine (expect_traces fun _ _ => rfl).bind fun first name hname => ?_
  obtain ⟨i, rfl, rfl⟩ := hname
  refine (accepts_traces fun _ _ => rfl).bind fun equals yes hyes => ?_
  obtain ⟨b, rfl⟩ := hyes
  have hdeclare {later : List ι} {initializer : (ι → Nat) → Option Expr}
      (hreads : Token.InOrder base later fun lines => Expr.readsOfOption (initializer lines)) :
      Traces base (fun more s => Stmt.Traced base ([i] ++ (equals ++ (later ++ more))) s)
        fun lines =>
        discard (expect (·.isPunctuator .semicolon) .semicolonAfterDeclaration) >>= fun _ =>
          pure (.declare ((base i).onLine (lines i)) (initializer lines)) := by
    refine (expect_any fun _ _ => rfl).bind fun more _ _ => .pure ⟨fun inFunction inScope => ?_,
      fun _ => by trivial⟩
    have hfaults := hreads.misreads fun name => inScope && name == (base i).lexeme
    refine hfaults.weaken ?_
    have hmore := List.sublist_append_left later more
    rw [List.append_nil]
    exact (hmore.trans (List.sublist_append_right equals _)).trans (List.sublist_append_right [i] _)
  cases b with
  | true =>
    have hsome : Traces base (fun taken o => Token.InOrder base taken fun lines =>
        Expr.readsOfOption (o lines)) fun _ => some <$> Rule.expression := by
      simp only [map_eq_pure_bind]
      refine expression_traces.bind fun later e he => .pure ?_
      rw [List.append_nil]
      exact he.reads
    exact hsome.bind fun later o ho => hdeclare ho
  | false =>
    have hnone : Traces base (fun taken o => Token.InOrder base taken fun lines =>
        Expr.readsOfOption (o lines)) fun _ => (pure none : Rule (Option Expr)) := .pure .nil
    exact hnone.bind fun later o ho => hdeclare ho

variable {statement : Rule Stmt} {block : Rule (List Stmt)}

theorem whileStatement_traces (hs : Traces base (Stmt.BranchTraced base) fun _ => statement) :
    Traces base (Stmt.BranchTraced base) fun _ => whileStatement statement := by
  unfold whileStatement
  refine (expect_any fun _ _ => rfl).bind fun opening _ _ => ?_
  refine expression_traces.bind fun taken condition _ => ?_
  refine (expect_any fun _ _ => rfl).bind fun closing _ _ => ?_
  refine hs.bind fun later body hbody => .pure ?_
  refine (hbody.whileLoop condition).weaken ?_
  rw [List.append_nil]
  exact ((List.sublist_append_right closing later).trans (List.sublist_append_right taken _)).trans
    (List.sublist_append_right opening _)

theorem ifStatement_traces (hs : Traces base (Stmt.BranchTraced base) fun _ => statement) :
    Traces base (Stmt.BranchTraced base) fun _ => ifStatement statement := by
  unfold ifStatement
  refine (expect_any fun _ _ => rfl).bind fun opening _ _ => ?_
  refine expression_traces.bind fun taken condition _ => ?_
  refine (expect_any fun _ _ => rfl).bind fun closing _ _ => ?_
  refine hs.bind fun first thenBranch hthen => ?_
  have hwithin (more : List ι) : (first ++ more).Sublist
      (opening ++ (taken ++ (closing ++ (first ++ more)))) :=
    ((List.sublist_append_right closing _).trans (List.sublist_append_right taken _)).trans
      (List.sublist_append_right opening _)
  refine (accepts_traces fun _ _ => rfl).bind fun alternative yes hyes => ?_
  obtain ⟨b, rfl⟩ := hyes
  cases b with
  | false =>
    have hif : Stmt.BranchTraced base first fun lines =>
        .ifThen (condition lines) (thenBranch lines) :=
      ⟨⟨hthen.faults, fun lines => ⟨hthen.plain lines, hthen.regular lines⟩⟩, fun _ => rfl⟩
    exact .pure (hif.weaken ((List.sublist_append_left ..).trans (hwithin _)))
  | true =>
    refine hs.bind fun second elseBranch helse => .pure ?_
    have hif : Stmt.BranchTraced base (first ++ second) fun lines =>
        .ifElse (condition lines) (thenBranch lines) (elseBranch lines) :=
      ⟨⟨fun inFunction inScope =>
          (hthen.faults inFunction inScope).append (helse.faults inFunction inScope),
        fun lines => ⟨⟨hthen.plain lines, hthen.regular lines⟩, helse.plain lines,
          helse.regular lines⟩⟩, fun _ => rfl⟩
    rw [List.append_nil]
    exact hif.weaken (((List.sublist_append_right alternative second).append_left first).trans
      (hwithin _))

theorem forInitializer_traces :
    Traces base (OptionTraced (Stmt.Traced base)) fun _ => forInitializer := by
  unfold forInitializer
  refine (accepts_traces fun _ _ => rfl).bind fun first yes hyes => ?_
  obtain ⟨b, rfl⟩ := hyes
  refine .ite (.pure (Or.inl rfl)) ?_
  refine (accepts_traces fun _ _ => rfl).bind fun second yes' hyes' => ?_
  obtain ⟨b', rfl⟩ := hyes'
  have hwithin (later : List ι) : later.Sublist (first ++ (second ++ (later ++ []))) := by
    rw [List.append_nil]
    exact (List.sublist_append_right second later).trans (List.sublist_append_right first _)
  refine .ite ?_ ?_
  · refine variableDeclaration_traces.bind fun later s hs => .pure (Or.inr ⟨s, rfl, ?_⟩)
    exact hs.weaken (hwithin later)
  · refine expressionStatement_traces.bind fun later s hs => .pure (Or.inr ⟨s, rfl, ?_⟩)
    exact hs.toTraced.weaken (hwithin later)

/-- The initializer comes before the body also in the text. -/
theorem forStatement_traces (hs : Traces base (Stmt.BranchTraced base) fun _ => statement) :
    Traces base (Stmt.BranchTraced base) fun _ => forStatement statement := by
  unfold forStatement
  refine (expect_any fun _ _ => rfl).bind fun opening _ _ => ?_
  refine forInitializer_traces.bind fun first initializer hinitializer => ?_
  refine (optionalExpression_traces _).bind fun test condition _ => ?_
  refine (expect_any fun _ _ => rfl).bind fun semicolon _ _ => ?_
  refine (optionalExpression_traces _).bind fun step increment hincrement => ?_
  refine (expect_any fun _ _ => rfl).bind fun closing _ _ => ?_
  refine hs.bind fun later body hbody => .pure ?_
  refine (Stmt.BranchTraced.forLoop hinitializer hincrement hbody).weaken ?_
  rw [List.append_nil]
  have hclauses : later.Sublist (test ++ (semicolon ++ (step ++ (closing ++ later)))) :=
    (((List.sublist_append_right closing later).trans (List.sublist_append_right step _)).trans
      (List.sublist_append_right semicolon _)).trans (List.sublist_append_right test _)
  exact (hclauses.append_left first).trans (List.sublist_append_right opening _)

/-- A choice between two rules by the next token. -/
theorem chosen_traces {p : Token → Bool} (hp : Lineless p) {r r' : Rule Stmt}
    {q : List ι → ((ι → Nat) → Stmt) → Prop} (hweaken : ∀ taken later s, q later s →
      q (taken ++ later) s)
    (hr : Traces base q fun _ => r) (hr' : Traces base q fun _ => r') :
    Traces base q fun _ => accepts p >>= fun yes => if yes = true then r else r' := by
  refine (accepts_traces hp).bind fun taken yes hyes => ?_
  obtain ⟨b, rfl⟩ := hyes
  exact .ite (hr.mono (hweaken taken)) (hr'.mono (hweaken taken))

theorem statementWith_traces (hs : Traces base (Stmt.BranchTraced base) fun _ => statement)
    (hb : Traces base (Stmt.AllTraced base) fun _ => block) :
    Traces base (Stmt.BranchTraced base) fun _ => statementWith statement block := by
  have hweaken (taken later : List ι) (s : (ι → Nat) → Stmt)
      (h : Stmt.BranchTraced base later s) : Stmt.BranchTraced base (taken ++ later) s :=
    h.weaken (List.sublist_append_right taken later)
  have hblock : Traces base (Stmt.BranchTraced base) fun _ => block >>= fun body =>
      pure (.block body) := by
    refine hb.bind fun taken body hbody => .pure ?_
    rw [List.append_nil]
    exact .block hbody
  unfold statementWith
  refine chosen_traces (fun _ _ => rfl) hweaken (forStatement_traces hs) ?_
  refine chosen_traces (fun _ _ => rfl) hweaken (ifStatement_traces hs) ?_
  refine chosen_traces (fun _ _ => rfl) hweaken printStatement_traces ?_
  refine (accept?_traces fun _ _ => rfl).bind fun taken keyword hkeyword => ?_
  rcases hkeyword with ⟨rfl, rfl⟩ | ⟨i, rfl, rfl⟩
  · refine chosen_traces (fun _ _ => rfl) hweaken (whileStatement_traces hs) ?_
    exact chosen_traces (fun _ _ => rfl) hweaken hblock expressionStatement_traces
  · exact returnStatement_traces i

theorem parameters_traces : Traces base Any fun _ => parameters := by
  unfold parameters
  refine (sees_traces fun _ _ => rfl).bind fun taken yes hyes => ?_
  obtain ⟨-, b, rfl⟩ := hyes
  have hclose {params : (ι → Nat) → List Token} : Traces base (fun _ _ => True) fun lines =>
      discard (expect (·.isPunctuator .rightParen) .parenAfterParameters) >>= fun _ =>
        pure (params lines) :=
    (expect_any fun _ _ => rfl).bind fun _ _ _ => .pure trivial
  have hitem : Traces base Any fun _ => expect Token.isIdentifier .parameterName :=
    (expect_traces fun _ _ => rfl).mono fun _ _ _ => trivial
  have hempty : Traces base Any fun _ => (pure [] : Rule (List Token)) := .pure trivial
  have hfull : Traces base Any fun _ =>
      commaSeparated .tooManyParameters (expect Token.isIdentifier .parameterName) :=
    commaSeparated_traces hitem (fun _ _ _ => trivial) (fun _ _ _ _ => trivial)
      fun _ _ _ _ _ _ => trivial
  cases b with
  | true => exact hempty.bind fun _ _ _ => hclose
  | false => exact hfull.bind fun _ _ _ => hclose

theorem functionDeclaration_traces (hb : Traces base (Stmt.AllTraced base) fun _ => block) :
    Traces base (Stmt.Traced base) fun _ => functionDeclaration block := by
  unfold functionDeclaration
  refine (expect_traces fun _ _ => rfl).bind fun first name _ => ?_
  refine (expect_any fun _ _ => rfl).bind fun opening _ _ => ?_
  refine parameters_traces.bind fun taken params _ => ?_
  refine (expect_any fun _ _ => rfl).bind fun brace _ _ => ?_
  refine hb.bind fun later body hbody => .pure ?_
  have hfunction : Stmt.Traced base later fun lines =>
      .function (name lines) (params lines) (body lines) :=
    ⟨fun _ _ => hbody.faults true true, hbody.regular⟩
  refine hfunction.weaken ?_
  rw [List.append_nil]
  exact (((List.sublist_append_right brace later).trans (List.sublist_append_right taken _)).trans
    (List.sublist_append_right opening _)).trans (List.sublist_append_right first _)

theorem declarationWith_traces (hs : Traces base (Stmt.BranchTraced base) fun _ => statement)
    (hb : Traces base (Stmt.AllTraced base) fun _ => block) :
    Traces base (Stmt.Traced base) fun _ => declarationWith statement block := by
  have hweaken (taken later : List ι) (s : (ι → Nat) → Stmt)
      (h : Stmt.Traced base later s) : Stmt.Traced base (taken ++ later) s :=
    h.weaken (List.sublist_append_right taken later)
  unfold declarationWith
  refine chosen_traces (fun _ _ => rfl) hweaken (functionDeclaration_traces hb) ?_
  refine chosen_traces (fun _ _ => rfl) hweaken variableDeclaration_traces ?_
  exact (statementWith_traces hs hb).mono fun _ _ h => h.toTraced

end Statements

section Declarations

variable {α : Type}

/-- What an action that cannot fail takes and yields. -/
def StateTraces (base : ι → Token) (q : List ι → ((ι → Nat) → α) → Prop)
    (action : StateM Cursor α) : Prop :=
  ∀ indices s, Cursor.Spans base indices s → ∃ taken rest, indices = taken ++ rest ∧
    Cursor.Spans base rest (fun lines => (action (s lines)).2) ∧
      q taken fun lines => (action (s lines)).1

theorem StateTraces.lift {q : List ι → ((ι → Nat) → α) → Prop} {action : StateM Cursor α}
    (h : StateTraces base q action) : Traces base q fun _ => liftM action := by
  intro indices s hs
  obtain ⟨taken, rest, hindices, hrest, hq⟩ := h indices s hs
  exact ⟨taken, rest, hindices, hrest, .done _ (fun _ => rfl) hq⟩

/-- Where parsing goes on after an error does not depend on the lines. -/
theorem resumption_spans (base : ι → Token) (indices : List ι) :
    ∃ dropped rest, indices = dropped ++ rest ∧ ∀ lines : ι → Nat,
      Cursor.resumption (indices.map fun i => (base i).onLine (lines i)) =
        rest.map fun i => (base i).onLine (lines i) := by
  induction indices with
  | nil => exact ⟨[], [], rfl, fun _ => rfl⟩
  | cons i indices ih =>
    have hstarts (lines : ι → Nat) :
        (indices.map fun i => (base i).onLine (lines i)).head?.any Token.startsStatement =
          indices.head?.any fun i => (base i).startsStatement := by
      cases indices <;> rfl
    have hsemicolon (lines : ι → Nat) : ((base i).onLine (lines i)).isPunctuator .semicolon =
        (base i).isPunctuator .semicolon := rfl
    simp only [List.map_cons, Cursor.resumption, hstarts, hsemicolon]
    cases (base i).isPunctuator .semicolon ||
        indices.head?.any fun i => (base i).startsStatement with
    | true => exact ⟨[i], indices, rfl, fun _ => rfl⟩
    | false =>
      obtain ⟨dropped, rest, hindices, hrest⟩ := ih
      exact ⟨i :: dropped, rest, by rw [hindices, List.cons_append], hrest⟩

/-- A faulty statement leaves nothing behind. -/
theorem recovering_traces {rule : Rule Stmt}
    (hr : Traces base (Stmt.Traced base) fun _ => rule) :
    StateTraces base (OptionTraced (Stmt.Traced base)) (recovering rule) := by
  intro indices s hs
  obtain ⟨taken, rest, rfl, hrest, hout⟩ := hr indices s hs
  cases hout with
  | failed d hd =>
    have hfails (lines : ι → Nat) : recovering rule (s lines) =
        (none, { (rule (s lines)).2.report (d lines) with
          rest := Cursor.resumption (rule (s lines)).2.rest }) :=
      recovering_error (Prod.ext (hd lines) rfl)
    -- Where parsing resumes depends on kinds only, so what is dropped is the same on all lines.
    obtain ⟨dropped, rest', rfl, hresume⟩ := resumption_spans base rest
    refine ⟨taken ++ dropped, rest', (List.append_assoc ..).symm, ?_, ?_⟩
    · refine hrest.of_rest (fun lines => ?_) fun lines => ?_
      · rw [hfails]
        dsimp only
        rw [hrest.rest, hresume]
      · rw [hfails]
        rfl
    · simp only [hfails]
      exact Or.inl rfl
  | done a ha htraced =>
    have hgoes (lines : ι → Nat) : recovering rule (s lines) =
        (some (a lines), (rule (s lines)).2) :=
      recovering_ok (Prod.ext (ha lines) rfl)
    refine ⟨taken, rest, rfl, ?_, ?_⟩
    · simpa only [hgoes] using hrest
    · simp only [hgoes]
      exact Or.inr ⟨a, rfl, htraced⟩

/-- By induction on the bound. -/
theorem declarationsUntil_traces {closes : Token → Bool} (hp : Lineless closes)
    {declaration : StateM Cursor (Option Stmt)}
    (hd : StateTraces base (OptionTraced (Stmt.Traced base)) declaration) (bound : Nat) :
    StateTraces base (Stmt.AllTraced base) (declarationsUntil closes declaration bound) := by
  induction bound with
  | zero => exact fun indices s hs => ⟨[], indices, rfl, hs, .nil⟩
  | succ bound ih =>
    intro indices s hs
    have hcloses (lines : ι → Nat) : (s lines).rest.head?.all closes =
        indices.head?.all (closes ∘ base) := by
      rw [hs.rest]
      cases indices with
      | nil => rfl
      | cons i rest => exact hp _ _
    simp only [declarationsUntil_succ_apply, hcloses]
    split
    · exact ⟨[], indices, rfl, hs, .nil⟩
    · obtain ⟨taken, rest, rfl, hrest, hfirst⟩ := hd indices s hs
      obtain ⟨later, rest', rfl, hrest', hothers⟩ := ih rest _ hrest
      refine ⟨taken ++ later, rest', (List.append_assoc ..).symm, hrest', ?_⟩
      change Stmt.AllTraced base (taken ++ later) fun lines => (declaration (s lines)).1.toList ++
        (declarationsUntil closes declaration bound (declaration (s lines)).2).1
      rcases hfirst with hnone | ⟨first, hsome, htraced⟩
      · have hmissing (lines : ι → Nat) : (declaration (s lines)).1 = none := congrFun hnone lines
        simp only [hmissing]
        exact hothers.weaken (List.sublist_append_right taken later)
      · have hthere (lines : ι → Nat) : (declaration (s lines)).1 = some (first lines) :=
          congrFun hsome lines
        simp only [hthere]
        exact htraced.cons hothers

theorem blockOf_traces {declaration : StateM Cursor (Option Stmt)}
    (hd : StateTraces base (OptionTraced (Stmt.Traced base)) declaration) :
    Traces base (Stmt.AllTraced base) fun _ => blockOf declaration := by
  unfold blockOf
  have hinside (bound : Nat) : Traces base (Stmt.AllTraced base) fun _ =>
      liftM (declarationsUntil (·.isPunctuator .rightBrace) declaration bound) >>= fun body =>
        discard (expect (·.isPunctuator .rightBrace) .braceAfterBlock) >>= fun _ => pure body := by
    refine (declarationsUntil_traces (fun _ _ => rfl) hd bound).lift.bind fun taken body hbody => ?_
    refine (expect_any fun _ _ => rfl).bind fun closing _ _ => .pure ?_
    exact hbody.weaken (List.sublist_append_left ..)
  exact .length_bind hinside

/-- By induction on the depth of nesting. -/
theorem nested_traces (depth : Nat) :
    Traces base (Stmt.BranchTraced base) (fun _ => statementUpTo depth) ∧
      StateTraces base (OptionTraced (Stmt.Traced base)) (declarationUpTo depth) := by
  induction depth with
  | zero => exact ⟨.fail, recovering_traces .fail⟩
  | succ depth ih =>
    have hblock := blockOf_traces ih.2
    exact ⟨statementWith_traces ih.1 hblock,
      recovering_traces (declarationWith_traces ih.1 hblock)⟩

theorem declaration_traces :
    StateTraces base (OptionTraced (Stmt.Traced base)) Rule.declaration := by
  intro indices s hs
  have hsame (lines : ι → Nat) : Rule.declaration (s lines) =
      declarationUpTo (indices.length + 1) (s lines) := by
    rw [Rule.declaration, hs.length]
  simp only [hsame]
  exact nested_traces _ |>.2 indices s hs

theorem program_traces : StateTraces base (Stmt.AllTraced base) program := by
  intro indices s hs
  have hsame (lines : ι → Nat) : program (s lines) =
      declarationsUntil (fun _ => false) Rule.declaration indices.length (s lines) := by
    rw [program, hs.length]
  simp only [hsame]
  exact declarationsUntil_traces (fun _ _ => rfl) declaration_traces _ indices s hs

end Declarations

end Rule

section Programs

variable (tokens : List Token) (n : NodeId)

/-- The tokens on other lines. -/
def Token.relined (tokens : List Token) (lines : Fin tokens.length → Nat) : List Token :=
  List.ofFn fun i => tokens[i].onLine (lines i)

theorem Token.relined_eq_map (lines : Fin tokens.length → Nat) :
    Token.relined tokens lines =
      (List.finRange tokens.length).map fun i => tokens[i].onLine (lines i) :=
  List.ofFn_eq_map

theorem Token.relined_self : Token.relined tokens (fun i => tokens[i].line) = tokens :=
  List.ofFn_getElem

/-- All choices of lines are cut off at the same end mark. -/
theorem Cursor.ofTokens_spans :
    Cursor.Spans (fun i : Fin tokens.length => tokens[i])
      ((List.finRange tokens.length).takeWhile fun i => !tokens[i].isEnd)
      fun lines => Cursor.ofTokens (Token.relined tokens lines) n := by
  refine ⟨fun lines => ?_, fun lines => Cursor.isEnd_stopOf _⟩
  rw [ofTokens, Token.relined_eq_map, List.takeWhile_map]
  rfl

/-- Whatever the lines of its tokens, a program is reported on at the same places of its text, and
each report is at a token farther on than the report before. -/
theorem exists_marks : ∃ marks : List (Fin tokens.length × ScopingCause),
    (marks.map Prod.fst).Pairwise (· < ·) ∧ ∀ lines,
      Stmt.AllRegular (parseProgram (Token.relined tokens lines) n).statements ∧
        (resolve (parseProgram (Token.relined tokens lines) n).statements).errors =
          marks.map fun m => .scoping (tokens[m.1].onLine (lines m.1)) m.2 := by
  obtain ⟨taken, rest, hindices, -, htraced⟩ :=
    Rule.program_traces _ _ (Cursor.ofTokens_spans tokens n)
  obtain ⟨marks, hsub, hmarks⟩ := htraced.faults false false
  have htaken : taken.Sublist (List.finRange tokens.length) :=
    (hindices ▸ List.sublist_append_left taken rest).trans (List.takeWhile_sublist _)
  refine ⟨marks, (List.pairwise_lt_finRange _).sublist (hsub.trans htaken), fun lines =>
    ⟨htraced.regular lines, ?_⟩⟩
  rw [errors_resolve]
  exact hmarks lines

/-- The reports on a parsed program are the faults in its tree, in the order of the tree, and they
are at tokens each farther on in the text than the one before. That these are the places in the text
where the faults stand, and not just tokens that look alike, shows when the tokens are put on other
lines: each report moves with its own token. -/
theorem parsed_faults_in_order :
    (resolve (parseProgram tokens n).statements).errors =
        (Node.program (parseProgram tokens n).statements).faults [] ∧
      ∃ marks : List (Fin tokens.length × ScopingCause),
        (marks.map Prod.fst).Pairwise (· < ·) ∧
        (resolve (parseProgram tokens n).statements).errors =
          marks.map (fun m => .scoping tokens[m.1] m.2) ∧
        ∀ lines, (resolve (parseProgram (Token.relined tokens lines) n).statements).errors =
          marks.map fun m => .scoping (tokens[m.1].onLine (lines m.1)) m.2 := by
  obtain ⟨marks, hmarks, hlines⟩ := exists_marks tokens n
  have hself := hlines fun i => tokens[i].line
  rw [Token.relined_self] at hself
  exact ⟨errors_resolve_eq_faults hself.1, marks, hmarks, hself.2, fun lines => (hlines lines).2⟩

end Programs

end TreeWalk
