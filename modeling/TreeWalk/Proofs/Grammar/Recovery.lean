import TreeWalk.Proofs.Grammar.Confinement
import TreeWalk.Proofs.Grammar.Relabeling
import TreeWalk.Proofs.Grammar.StatementCompleteness

/-! Statements that end at the first semicolon. Whether such a statement parses or not, parsing
goes on right behind the semicolon, and nothing after it has any part in what becomes of it. -/

namespace TreeWalk

open Rule

namespace Rule

variable {α β ι : Type} {ts : List Token} {mark : Token} {n : NodeId}

/-- All rules of a family do the same with the tokens up to a semicolon, whatever comes after it:
they take them all, or they give up within them. -/
inductive SettlesAt (r : ι → Rule α) (ts : List Token) (mark : Token) (n : NodeId) : Prop where
  | done (a : α) (ds : List Diagnostic) (n' : NodeId)
    (h : ∀ i rest stop reports, r i ⟨ts ++ mark :: rest, stop, reports, n⟩ =
      (.ok a, ⟨rest, stop, reports ++ ds, n'⟩))
  | failed (d : Diagnostic) (ts' : List Token) (hs : ts' <:+ ts) (ds : List Diagnostic)
    (n' : NodeId) (h : ∀ i rest stop reports, r i ⟨ts ++ mark :: rest, stop, reports, n⟩ =
      (.error d, ⟨ts' ++ mark :: rest, stop, reports ++ ds, n'⟩))

/-- They do so before every semicolon. -/
def Settles (r : ι → Rule α) : Prop :=
  ∀ ts mark n, Before ts mark → SettlesAt r ts mark n

namespace SettlesAt

/-- After tokens that have been taken. -/
theorem becomes {r : ι → Rule α} {q : Rule α} {ts₁ : List Token}
    (h : SettlesAt (fun _ : ι => q) ts₁ mark n) (hs : ts₁ <:+ ts)
    (hr : ∀ i rest, Becomes (r i) (ts ++ mark :: rest) n q (ts₁ ++ mark :: rest) n) :
    SettlesAt r ts mark n := by
  cases h with
  | done a ds n' h =>
    exact .done a ds n' fun i rest stop reports => (hr i rest stop reports).trans (h i ..)
  | failed d ts' hs' ds n' h =>
    exact .failed d ts' (hs'.trans hs) ds n' fun i rest stop reports =>
      (hr i rest stop reports).trans (h i ..)

end SettlesAt

/-- Another token in the place of a semicolon is reported, and not taken. -/
theorem semicolon_missing {what : Expectation} {a : α} {t : Token}
    (ht : t.isPunctuator .semicolon = false) (stop : Token) (reports : List Diagnostic) :
    (discard (expect (·.isPunctuator .semicolon) what) >>= fun _ => pure a : Rule α)
        ⟨t :: ts, stop, reports, n⟩ =
      (.error (.syntactic t (.expected what)), ⟨t :: ts, stop, reports, n⟩) := by
  have hexpect : expect (·.isPunctuator .semicolon) what ⟨t :: ts, stop, reports, n⟩ =
      (.error (.syntactic t (.expected what)), ⟨t :: ts, stop, reports, n⟩) := by
    unfold expect
    rw [bind_apply, Takes.accept?_none (lacks_cons.mpr ht)]
    rfl
  change (((fun _ => PUnit.unit) <$> expect (·.isPunctuator .semicolon) what) >>= fun _ =>
    pure a : Rule α) _ = _
  rw [map_eq_pure_bind, bind_assoc, bind_apply, hexpect]

namespace Settles

/-- A rule that stops before the semicolon comes first. -/
theorem bind {r : ι → Rule α} {f : ι → α → Rule β} (hr : ∀ k, Confined k r)
    (hf : ∀ a, Settles fun i => f i a) : Settles fun i => r i >>= f i := by
  intro ts mark n hb
  obtain ⟨result, ts₁, ds₁, n₁, hs₁, hr⟩ := hr (ts.length + 1) ts mark n (Nat.lt_succ_self _) hb
  cases result with
  | error d =>
    refine .failed d ts₁ hs₁ ds₁ n₁ fun i rest stop reports => ?_
    rw [bind_apply, hr]
  | ok a =>
    cases hf a ts₁ mark n₁ (hb.of_suffix hs₁) with
    | done b ds₂ n₂ hf =>
      refine .done b (ds₁ ++ ds₂) n₂ fun i rest stop reports => ?_
      rw [bind_apply, hr, ← List.append_assoc]
      exact hf i rest stop (reports ++ ds₁)
    | failed d ts₂ hs₂ ds₂ n₂ hf =>
      refine .failed d ts₂ (hs₂.trans hs₁) (ds₁ ++ ds₂) n₂ fun i rest stop reports => ?_
      rw [bind_apply, hr, ← List.append_assoc]
      exact hf i rest stop (reports ++ ds₁)

/-- The semicolon comes last. -/
theorem semicolon {what : Expectation} {a : α} : Settles fun _ : ι =>
    discard (expect (·.isPunctuator .semicolon) what) >>= fun _ => pure a := by
  intro ts mark n hb
  cases ts with
  | nil =>
    refine .done a [] n fun i rest stop reports => ?_
    have htakes : Takes (discard (expect (·.isPunctuator .semicolon) what) >>= fun _ => pure a)
        (mark :: rest) n a rest n :=
      (Takes.expect (Token.isPunctuator_iff.mpr hb.mark)).discard.bind Takes.pure
    rw [List.append_nil]
    exact htakes stop reports
  | cons t ts =>
    have ht : t.isPunctuator .semicolon = false :=
      Token.isPunctuator_eq_false (hb.inside t List.mem_cons_self)
    refine .failed (.syntactic t (.expected what)) (t :: ts) List.suffix_rfl [] n
      fun i rest stop reports => ?_
    rw [List.append_nil]
    exact semicolon_missing ht stop reports

end Settles

section Statements

theorem expressionStatement_settles : Settles fun _ : ι => expressionStatement := by
  unfold expressionStatement
  exact Settles.bind (fun _ => expression_confined) fun _ => .semicolon

theorem printStatement_settles : Settles fun _ : ι => printStatement := by
  unfold printStatement
  exact Settles.bind (fun _ => expression_confined) fun _ => .semicolon

theorem returnStatement_settles (keyword : Token) :
    Settles fun _ : ι => returnStatement keyword := by
  unfold returnStatement
  refine Settles.bind (fun k => ?_) fun _ => .semicolon
  unfold optionalExpression
  exact Confined.sees.bind fun yes =>
    .ite (.pure none) (expression_confined.bind fun e => .pure (some e))

theorem variableDeclaration_settles : Settles fun _ : ι => variableDeclaration := by
  have hclose (name : Token) (initializer : Option Expr) : Settles fun _ : ι =>
      discard (expect (·.isPunctuator .semicolon) .semicolonAfterDeclaration) >>= fun _ =>
        pure (Stmt.declare name initializer) := .semicolon
  unfold variableDeclaration
  refine Settles.bind (fun _ => .expect inner_identifier) fun name => ?_
  refine Settles.bind (fun _ => .accepts (inner_punctuator (by decide))) fun yes => ?_
  cases yes with
  | true => exact Settles.bind (fun _ => expression_confined.map) (hclose name)
  | false => exact Settles.bind (fun _ => .pure none) (hclose name)

section Declarations

variable {statement : Rule Stmt} {block : Rule (List Stmt)} {t : Token}

/-- What starts with no word for a declaration is a statement. -/
theorem declarationWith_other
    (hno : ∀ k ∈ [Keyword.fun_, .var_], t.kind ≠ .keyword k) :
    Becomes (declarationWith statement block) (t :: ts) n (statementWith statement block)
      (t :: ts) n := by
  unfold declarationWith
  refine (Becomes.bind (Takes.accepts_false (lacks_keyword (hno .fun_ (by simp))))).trans ?_
  exact Becomes.bind (Takes.accepts_false (lacks_keyword (hno .var_ (by simp))))

theorem declarationWith_var (hk : t.kind = .keyword .var_) :
    Becomes (declarationWith statement block) (t :: ts) n variableDeclaration ts n := by
  unfold declarationWith
  refine (Becomes.bind (Takes.accepts_false (lacks_keyword (by simp [hk])))).trans ?_
  exact Becomes.bind (Takes.accepts (Token.isKeyword_iff.mpr hk))

/-- What starts with no word for statements and no brace is an expression. -/
theorem declarationWith_expression
    (hno : ∀ k ∈ [Keyword.fun_, .var_, .for_, .if_, .print_, .return_, .while_],
      t.kind ≠ .keyword k) (hbrace : t.kind ≠ .punctuator .leftBrace) :
    Becomes (declarationWith statement block) (t :: ts) n expressionStatement (t :: ts) n := by
  have hdeclaration : Becomes (declarationWith statement block) (t :: ts) n
      (statementWith statement block) (t :: ts) n :=
    declarationWith_other fun k hk => hno k (List.mem_append_left _ hk)
  have hstatement : Becomes (statementWith statement block) (t :: ts) n _ (t :: ts) n :=
    statementWith_other fun k hk => hno k (List.mem_cons_of_mem _ (List.mem_cons_of_mem _ hk))
  refine (hdeclaration.trans hstatement).trans ?_
  exact Becomes.bind (Takes.accepts_false (lacks_punctuator hbrace))

theorem declarationWith_block (hbrace : t.kind = .punctuator .leftBrace) :
    Becomes (declarationWith statement block) (t :: ts) n
      (block >>= fun body => pure (Stmt.block body)) ts n := by
  have hdeclaration : Becomes (declarationWith statement block) (t :: ts) n
      (statementWith statement block) (t :: ts) n :=
    declarationWith_other fun k _ => by simp [hbrace]
  have hstatement : Becomes (statementWith statement block) (t :: ts) n _ (t :: ts) n :=
    statementWith_other fun k _ => by simp [hbrace]
  refine (hdeclaration.trans hstatement).trans ?_
  exact Becomes.bind (Takes.accepts (Token.isPunctuator_iff.mpr hbrace))

/-- The inside of a block that is read up to the closing brace. -/
theorem blockOf_apply {declaration : StateM Cursor (Option Stmt)} {stop : Token}
    {rest : List Token} {reports reports' : List Diagnostic} {n' : NodeId} {body : List Stmt}
    (hclosing : t.kind = .punctuator .rightBrace)
    (hbody : declarationsUntil (·.isPunctuator .rightBrace) declaration ts.length
      ⟨ts, stop, reports, n⟩ = (body, ⟨t :: rest, stop, reports', n'⟩)) :
    blockOf declaration ⟨ts, stop, reports, n⟩ = (.ok body, ⟨rest, stop, reports', n'⟩) := by
  have hclose : Takes (discard (expect (·.isPunctuator .rightBrace) .braceAfterBlock) >>= fun _ =>
      pure body) (t :: rest) n' body rest n' :=
    (Takes.expect (Token.isPunctuator_iff.mpr hclosing)).discard.bind Takes.pure
  change ((liftM (declarationsUntil (·.isPunctuator .rightBrace) declaration ts.length) >>= fun b =>
    discard (expect (·.isPunctuator .rightBrace) .braceAfterBlock) >>= fun _ => pure b) :
      Rule (List Stmt)) _ = _
  rw [bind_apply, liftM_apply, hbody]
  exact hclose stop reports'

theorem declarationUpTo_succ_apply (depth : Nat) (s : Cursor) : declarationUpTo (depth + 1) s =
    recovering (declarationWith (statementUpTo depth) (blockOf (declarationUpTo depth))) s := by
  rw [declarationUpTo]

end Declarations

end Statements

end Rule

/-- A statement in its simplest form: no semicolon before the last token, no brace, no word that
starts a statement with others in it, and a word that starts a statement only in front. -/
structure SimpleChunk where
  inside : List Token
  mark : Token
  before : Before inside mark
  plain : ∀ t ∈ inside, t.kind ∉ [Kind.eof, .punctuator .leftBrace, .punctuator .rightBrace,
    .keyword .fun_, .keyword .for_, .keyword .if_, .keyword .while_]
  leading : ∀ t ∈ inside.tail, t.kind ∉ [Kind.keyword .class_, .keyword .var_, .keyword .print_,
    .keyword .return_]

namespace SimpleChunk

variable (c : SimpleChunk)

def tokens : List Token :=
  c.inside ++ [c.mark]

theorem tokens_append (rest : List Token) : c.tokens ++ rest = c.inside ++ c.mark :: rest := by
  rw [tokens, List.append_assoc, List.singleton_append]

theorem no_end {t : Token} (ht : t ∈ c.tokens) : t.isEnd = false := by
  rw [Bool.eq_false_iff, ne_eq, Token.isEnd_iff]
  intro hend
  rcases List.mem_append.mp ht with hinside | hmark
  · exact c.plain t hinside (by simp [hend])
  · rw [List.mem_singleton.mp hmark, c.before.mark] at hend
    cases hend

/-- Only its first token may start a statement. -/
theorem not_startsStatement {t : Token} (ht : t ∈ c.inside.tail) : t.startsStatement = false := by
  have hplain := c.plain t (List.mem_of_mem_tail ht)
  have hleading := c.leading t ht
  rw [Token.startsStatement, List.any_eq_false]
  intro k hk hkind
  rw [Token.isKeyword_iff.mp hkind] at hplain hleading
  simp only [List.mem_cons, List.not_mem_nil, or_false] at hk
  rcases hk with rfl | rfl | rfl | rfl | rfl | rfl | rfl | rfl <;> simp at hplain hleading

/-- From anywhere in a chunk, parsing goes on behind its semicolon. -/
theorem resumption {ts : List Token} (hs : ts <:+ c.inside) (rest : List Token) :
    Cursor.resumption (ts ++ c.mark :: rest) = rest := by
  have hmark : c.mark.isPunctuator .semicolon = true := Token.isPunctuator_iff.mpr c.before.mark
  induction ts with
  | nil => rw [List.nil_append, Cursor.resumption, hmark, Bool.true_or, if_pos rfl]
  | cons t ts ih =>
    have ht : t.isPunctuator .semicolon = false :=
      Token.isPunctuator_eq_false (c.before.inside t (hs.subset List.mem_cons_self))
    have hnext : (ts ++ c.mark :: rest).head?.any Token.startsStatement = false := by
      cases ts with
      | nil =>
        have hkeyword (k : Keyword) : c.mark.isKeyword k = false :=
          inner_keyword c.mark c.before.mark
        simp [Token.startsStatement, hkeyword]
      | cons u ts =>
        obtain ⟨pre, hpre⟩ := hs
        refine c.not_startsStatement ?_
        rw [← hpre]
        cases pre <;> simp
    rw [List.cons_append, Cursor.resumption, ht, hnext, Bool.or_self, if_neg Bool.false_ne_true]
    exact ih ((List.suffix_cons t ts).trans hs)

variable {ι : Type} (n : NodeId)

theorem declarationWith_settles (statement : ι → Rule Stmt) (block : ι → Rule (List Stmt)) :
    SettlesAt (fun i => declarationWith (statement i) (block i)) c.inside c.mark n := by
  have hmark := c.before.mark
  cases hinside : c.inside with
  | nil =>
    have hb : Before [] c.mark := hinside ▸ c.before
    refine (expressionStatement_settles [] c.mark n hb).becomes List.suffix_rfl fun i rest => ?_
    exact declarationWith_expression (by simp [hmark]) (by simp [hmark])
  | cons t ts =>
    have hb : Before (t :: ts) c.mark := hinside ▸ c.before
    have hs : ts <:+ t :: ts := List.suffix_cons t ts
    by_cases hvar : t.kind = .keyword .var_
    · exact (variableDeclaration_settles ts c.mark n (hb.of_suffix hs)).becomes hs
        fun i rest => declarationWith_var hvar
    by_cases hprint : t.kind = .keyword .print_
    · refine (printStatement_settles ts c.mark n (hb.of_suffix hs)).becomes hs fun i rest => ?_
      exact (declarationWith_other (by simp [hprint])).trans (statementWith_print hprint)
    by_cases hreturn : t.kind = .keyword .return_
    · refine (returnStatement_settles t ts c.mark n (hb.of_suffix hs)).becomes hs fun i rest => ?_
      exact (declarationWith_other (by simp [hreturn])).trans (statementWith_return hreturn)
    have hplain := c.plain t (by simp [hinside])
    refine (expressionStatement_settles (t :: ts) c.mark n hb).becomes List.suffix_rfl
      fun i rest => declarationWith_expression ?_ fun hbrace => hplain (by simp [hbrace])
    intro k hk hkind
    simp only [List.mem_cons, List.not_mem_nil, or_false] at hk
    rcases hk with rfl | rfl | rfl | rfl | rfl | rfl | rfl
    · exact hplain (by simp [hkind])
    · exact hvar hkind
    · exact hplain (by simp [hkind])
    · exact hplain (by simp [hkind])
    · exact hprint hkind
    · exact hreturn hkind
    · exact hplain (by simp [hkind])

/-- A chunk is read up to its end, whether or not there is a statement in it; if not, there is a
report. -/
theorem exists_declarationUpTo : ∃ (o : Option Stmt) (ds : List Diagnostic) (n' : NodeId),
    (o = none → ds ≠ []) ∧ ∀ depth rest stop reports,
      declarationUpTo (depth + 1) ⟨c.tokens ++ rest, stop, reports, n⟩ =
        (o, ⟨rest, stop, reports ++ ds, n'⟩) := by
  cases c.declarationWith_settles n statementUpTo fun depth => blockOf (declarationUpTo depth) with
  | done s ds n' h =>
    refine ⟨some s, ds, n', nofun, fun depth rest stop reports => ?_⟩
    rw [c.tokens_append, declarationUpTo_succ_apply]
    exact recovering_ok (h depth rest stop reports)
  | failed d ts hs ds n' h =>
    refine ⟨none, ds ++ [d], n', fun _ => by simp, fun depth rest stop reports => ?_⟩
    rw [c.tokens_append, declarationUpTo_succ_apply, recovering_error (h depth rest stop reports),
      Cursor.report, c.resumption hs, List.append_assoc]

end SimpleChunk

end TreeWalk
