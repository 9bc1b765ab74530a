import Mathlib.Data.List.TakeWhile
import TreeWalk.Proofs.Grammar.Isolation
import TreeWalk.Proofs.Indexed.Fuel
import TreeWalk.Proofs.Program.Accepted

/-! Parsing by index is total. On any tokens, ended or not, it finds every token that it looks for,
it never gets past the first end mark, and what it makes of the tokens depends on nothing behind
that. -/

namespace TreeWalk

/-- The index of the first end mark. -/
def Token.firstEnd (tokens : List Token) : Nat :=
  (supplied tokens).findIdx isEnd

/-- The tokens up to the first end mark and that mark itself. -/
def Token.upToEnd (tokens : List Token) : List Token :=
  (supplied tokens).take (firstEnd tokens + 1)

/-- Neither moved nor looked past an index. -/
structure Reader.Within (last : Nat) (reader : Reader) : Prop where
  current : reader.current ≤ last
  seen : ∀ i ∈ reader.seen, i ≤ last

/-- With enough fuel a run has a result, with less fuel the same one or none, and it is one that is
wanted. -/
def Descent.Ends {α : Type} (run : Nat → Descent α) (tokens : List Token) (reader : Reader)
    (wanted : Except Diagnostic α → Reader → Prop) : Prop :=
  ∃ result reader', wanted result reader' ∧
    (∃ enough, ∀ fuel, enough ≤ fuel → run fuel tokens reader = some (result, reader')) ∧
      ∀ fuel outcome, run fuel tokens reader = some outcome → outcome = (result, reader')

section Tokens

variable {tokens tokens' : List Token}

theorem Token.inside_takeWhile {t : Token} (ht : t ∈ tokens.takeWhile (!·.isEnd)) :
    t.isEnd = false := by
  have hall := List.all_eq_true.mp List.all_takeWhile t ht
  simpa using hall

theorem Token.supplied_eq (tokens : List Token) : ∃ after, supplied tokens =
    tokens.takeWhile (!·.isEnd) ++ Cursor.stopOf tokens :: after := by
  cases hfind : tokens.find? isEnd with
  | none =>
    have hnone : ∀ t ∈ tokens, t.isEnd = false := by simpa using hfind
    have htake : tokens.takeWhile (!·.isEnd) = tokens :=
      List.takeWhile_eq_self_iff.mpr fun t ht => by rw [hnone t ht]; rfl
    have hopen : ¬ tokens.getLast?.any isEnd = true := by
      cases hlast : tokens.getLast? with
      | none => simp
      | some t => simp [hnone t (List.mem_of_getLast? hlast)]
    refine ⟨[], ?_⟩
    rw [supplied, if_neg hopen, htake, Cursor.stopOf, hfind]
    rfl
  | some t =>
    obtain ⟨ht, before, after, rfl, hbefore⟩ := List.find?_eq_some_iff_append.mp hfind
    have htake : (before ++ t :: after).takeWhile (!·.isEnd) = before := by
      rw [List.takeWhile_append_of_pos hbefore, List.takeWhile_cons_of_neg (by simp [ht]),
        List.append_nil]
    rw [htake, Cursor.stopOf, hfind, supplied]
    split
    · exact ⟨after, rfl⟩
    · exact ⟨after ++ [endMark _], List.append_assoc ..⟩

theorem Token.firstEnd_eq (tokens : List Token) :
    firstEnd tokens = (tokens.takeWhile (!·.isEnd)).length := by
  obtain ⟨after, hsplit⟩ := supplied_eq tokens
  have hinside : (tokens.takeWhile (!·.isEnd)).findIdx isEnd =
      (tokens.takeWhile (!·.isEnd)).length :=
    List.findIdx_eq_length.mpr fun t ht => inside_takeWhile ht
  rw [firstEnd, hsplit, List.findIdx_append, hinside, if_neg (Nat.lt_irrefl _), List.findIdx_cons,
    Cursor.isEnd_stopOf]
  exact Nat.zero_add _

/-- There always is an end mark. -/
theorem Token.firstEnd_lt (tokens : List Token) :
    firstEnd tokens < (supplied tokens).length := by
  obtain ⟨after, hsplit⟩ := supplied_eq tokens
  rw [firstEnd_eq, hsplit, List.length_append, List.length_cons]
  omega

theorem Token.upToEnd_eq (tokens : List Token) :
    upToEnd tokens = tokens.takeWhile (!·.isEnd) ++ [Cursor.stopOf tokens] := by
  obtain ⟨after, hsplit⟩ := supplied_eq tokens
  rw [upToEnd, firstEnd_eq, hsplit, List.take_length_add_append]
  rfl

/-- What is parsed is what the tokens are up to the first end mark. -/
theorem Cursor.ofTokens_congr (h : Token.upToEnd tokens' = Token.upToEnd tokens) (n : NodeId) :
    ofTokens tokens' n = ofTokens tokens n := by
  rw [Token.upToEnd_eq, Token.upToEnd_eq] at h
  obtain ⟨hrest, hstop⟩ := List.append_inj' h rfl
  rw [ofTokens, ofTokens, hrest, List.singleton_inj.mp hstop]

end Tokens

section Places

variable {tokens : List Token} {last : Nat} {reader : Reader} {s : Cursor}

theorem Reader.At.within (h : reader.At tokens last s) : reader.Within last :=
  ⟨h.current_le, h.seen⟩

theorem Reader.At.current_eq (h : reader.At tokens last s) {t : Token}
    (ht : tokens[reader.current]? = some t) (hend : t.isEnd = true) : reader.current = last := by
  have hhead : s.head = t := Option.some.inj (h.head.symm.trans ht)
  have hrest : s.rest = [] := by
    rw [← List.isEmpty_iff, ← h.isEnd_head, hhead, hend]
  have hends := h.ends
  rwa [hrest] at hends

/-- A reader that is within the tokens stands where some cursor does. -/
theorem Reader.Within.at_drop (h : reader.Within (Token.firstEnd tokens)) :
    reader.At (Token.supplied tokens) (Token.firstEnd tokens)
      ⟨(tokens.takeWhile (!·.isEnd)).drop reader.current, Cursor.stopOf tokens, reader.reports,
        reader.nextId⟩ := by
  obtain ⟨after, hsplit⟩ := Token.supplied_eq tokens
  have hcurrent := h.current
  rw [Token.firstEnd_eq] at hcurrent
  refine ⟨⟨after, ?_⟩, Cursor.isEnd_stopOf tokens, fun t ht => ?_, ?_, h.seen, rfl, rfl⟩
  · rw [hsplit, List.drop_append_of_le_length hcurrent, List.append_assoc]
    rfl
  · exact Token.inside_takeWhile (List.mem_of_mem_drop ht)
  · change reader.current + (List.drop _ _).length = _
    rw [List.length_drop, Token.firstEnd_eq]
    omega

theorem Reader.start_at (tokens : List Token) (n : NodeId) : (Reader.start n).At
    (Token.supplied tokens) (Token.firstEnd tokens) (Cursor.ofTokens tokens n) :=
  Within.at_drop ⟨Nat.zero_le _, fun _ hi => absurd hi List.not_mem_nil⟩

end Places

section Renumbering

variable {σ : Relabeling}

theorem Expr.unnumbered_relabel (hline : σ.line = id) (e : Expr) :
    (σ.expr e).unnumbered = e.unnumbered := by
  have htoken : σ.token = id := funext (σ.token_eq hline)
  rw [unnumbered, Relabeling.expr, map_map, htoken]
  rfl

theorem Rule.soleExpression_moves (hprior : σ.prior = []) :
    Moves σ σ.expr soleExpression soleExpression := by
  refine expression_moves.bind fun e => Moves.get.bind fun s => ?_
  have hreports : (σ.cursor s).reports = s.reports.map σ.diagnostic := by
    rw [Relabeling.cursor, hprior]
    rfl
  rw [hreports]
  obtain ⟨rest, stop, reports, nextId⟩ := s
  cases reports with
  | nil =>
    cases rest with
    | nil => exact .pure e
    | cons t ts => exact (Moves.fail (g := id) _).bind fun _ => .pure e
  | cons d ds =>
    have hthrow : Moves σ σ.expr (throw d) (throw (σ.diagnostic d)) := fun _ => rfl
    cases rest with
    | nil => exact hthrow
    | cons t ts => exact (Moves.fail (g := id) _).bind fun _ => hthrow

theorem Cursor.ofTokens_renumbered (tokens : List Token) (n : NodeId) :
    (Relabeling.later n []).cursor (ofTokens tokens 0) = ofTokens tokens n :=
  Relabeling.later_cursor n [] _ _

theorem parseProgram_eq (tokens : List Token) (n : NodeId) : parseProgram tokens n =
    ⟨(Rule.program (Cursor.ofTokens tokens n)).1,
      (Rule.program (Cursor.ofTokens tokens n)).2.reports,
      (Rule.program (Cursor.ofTokens tokens n)).2.nextId⟩ :=
  rfl

theorem parseExpression_fst (tokens : List Token) (n : NodeId) :
    (parseExpression tokens n).1 = (Rule.soleExpression (Cursor.ofTokens tokens n)).1 :=
  rfl

theorem parseProgram_renumbered (tokens : List Token) (n : NodeId) :
    (parseProgram tokens n).statements.map Stmt.unnumbered =
        (parseProgram tokens 0).statements.map Stmt.unnumbered ∧
      (parseProgram tokens n).errors = (parseProgram tokens 0).errors :=
  program_later _ _ [] n

theorem parseExpression_renumbered (tokens : List Token) (n : NodeId) :
    (parseExpression tokens n).1.map Expr.unnumbered =
      (parseExpression tokens 0).1.map Expr.unnumbered := by
  let σ : Relabeling := .later n []
  have hmoves := Rule.soleExpression_moves (σ := σ) rfl (Cursor.ofTokens tokens 0)
  rw [Cursor.ofTokens_renumbered] at hmoves
  rw [parseExpression_fst, parseExpression_fst, hmoves]
  cases (Rule.soleExpression (Cursor.ofTokens tokens 0)).1 with
  | ok e => exact congrArg Except.ok (Expr.unnumbered_relabel (σ := σ) rfl e)
  | error d => exact congrArg Except.error (σ.diagnostic_eq rfl d)

end Renumbering

namespace Descent

section Runs

variable {α β : Type} {k fuel : Nat} {tokens : List Token} {reader reader' : Reader}

theorem soleExpression_follows (hfuel : k < fuel) :
    Follows k true (soleExpression fuel) Rule.soleExpression := by
  refine (expression_follows hfuel).bind fun e => ?_
  intro tokens last reader s hlt hat
  refine (Looks.isAtEnd hat).bind_follows fun reader' hat' _ => ?_
  obtain ⟨rest, stop, reports, nextId⟩ := s
  have hreports : reader'.reports = reports := hat'.reports
  cases rest with
  | cons t ts => exact (FollowsAt.fail hat' (.expected .endOfExpression)).congr rfl
  | nil =>
    have hget : (get : Descent Reader) tokens reader' = some (.ok reader', reader') := rfl
    cases reports with
    | cons d ds =>
      refine ⟨reader', (bind_of_ok hget).trans ?_, hat', Nat.le_refl _, nofun⟩
      rw [hreports]
      rfl
    | nil =>
      refine .of_looks ⟨reader', (bind_of_ok hget).trans ?_, hat', rfl⟩ rfl
      rw [hreports]
      rfl

theorem exists_of_bind_ok {w : Descent α} {f : α → Descent β} {b : β}
    (h : (w >>= f) tokens reader = some (.ok b, reader')) :
    ∃ a reader₁, w tokens reader = some (.ok a, reader₁) ∧
      f a tokens reader₁ = some (.ok b, reader') := by
  cases hw : w tokens reader with
  | none =>
    rw [bind_of_none hw] at h
    cases h
  | some outcome =>
    obtain ⟨result, reader₁⟩ := outcome
    cases result with
    | ok a => exact ⟨a, reader₁, rfl, (bind_of_ok hw).symm.trans h⟩
    | error d =>
      rw [bind_of_error hw] at h
      cases h

theorem exists_of_isAtEnd (h : isAtEnd tokens reader = some (.ok true, reader')) :
    ∃ t, tokens[reader'.current]? = some t ∧ t.isEnd = true := by
  have hpeek : peek tokens reader =
      tokens[reader.current]?.map fun t => (.ok t, reader.look reader.current) := rfl
  obtain ⟨t, reader₁, ht, hend⟩ := exists_of_bind_ok h
  rw [hpeek] at ht
  obtain ⟨t, hlook, hsame⟩ := Option.map_eq_some_iff.mp ht
  cases hsame
  obtain ⟨hyes, rfl⟩ := Prod.mk.inj (Option.some.inj hend)
  exact ⟨t, hlook, Except.ok.inj hyes⟩

/-- All declarations stop only at an end mark. -/
theorem declarationsUntil_isEnd {declaration : Descent (Option Stmt)} {statements all : List Stmt}
    (h : declarationsUntil [] declaration fuel statements tokens reader =
      some (.ok all, reader')) : ∃ t, tokens[reader'.current]? = some t ∧ t.isEnd = true := by
  induction fuel generalizing statements reader with
  | zero => cases h
  | succ fuel ih =>
    rw [declarationsUntil] at h
    obtain ⟨closed, reader₁, hcloses, hgo⟩ := exists_of_bind_ok h
    cases closed with
    | true =>
      cases hgo
      exact exists_of_isAtEnd hcloses
    | false =>
      obtain ⟨stmt, reader₂, hstmt, hothers⟩ := exists_of_bind_ok hgo
      exact ih hothers

theorem Ends.intro {run : Nat → Descent α} {wanted : Except Diagnostic α → Reader → Prop}
    (hrefines : ∀ fuel fuel', fuel ≤ fuel' → Refines (run fuel) (run fuel')) {enough : Nat}
    {result : Except Diagnostic α} (hrun : run enough tokens reader = some (result, reader'))
    (hwanted : wanted result reader') : Ends run tokens reader wanted := by
  refine ⟨result, reader', hwanted, ⟨enough, fun fuel hle => ?_⟩, fun fuel outcome h => ?_⟩
  · exact hrefines enough fuel hle tokens reader _ hrun
  · have hmost := hrefines enough (max enough fuel) (Nat.le_max_left ..) tokens reader _ hrun
    have hmost' := hrefines fuel (max enough fuel) (Nat.le_max_right ..) tokens reader _ h
    exact Option.some.inj (hmost'.symm.trans hmost)

theorem program_ends (tokens : List Token) (n : NodeId) :
    Ends program (Token.supplied tokens) (.start n) fun result reader =>
      result = .ok (parseProgram tokens n).statements ∧
        reader.reports = (parseProgram tokens n).errors ∧
        reader.nextId = (parseProgram tokens n).nextId ∧
        reader.current = Token.firstEnd tokens ∧ reader.Within (Token.firstEnd tokens) := by
  obtain ⟨reader, hrun, hat, -, -⟩ :=
    program_followsAt (Reader.start_at tokens n) (Nat.lt_succ_self _)
  rw [Rule.liftM_apply] at hrun hat
  obtain ⟨t, ht, hend⟩ := declarationsUntil_isEnd hrun
  exact .intro (fun _ _ => program_refines) hrun
    ⟨rfl, hat.reports, hat.nextId, hat.current_eq ht hend, hat.within⟩

theorem soleExpression_ends (tokens : List Token) (n : NodeId) :
    Ends soleExpression (Token.supplied tokens) (.start n) fun result reader =>
      result = (parseExpression tokens n).1 ∧ reader.Within (Token.firstEnd tokens) := by
  obtain ⟨reader, hrun, hat, -, -⟩ := soleExpression_follows (Nat.lt_succ_self _)
    (Token.supplied tokens) _ _ _ (Nat.lt_succ_self _) (Reader.start_at tokens n)
  exact .intro (fun _ _ => soleExpression_refines) hrun ⟨rfl, hat.within⟩

/-- A declaration anywhere before the end mark passes over a token, even if it is faulty. -/
theorem declaration_ends (h : reader.Within (Token.firstEnd tokens))
    (hbefore : reader.current < Token.firstEnd tokens) :
    Ends declaration (Token.supplied tokens) reader fun result reader' =>
      (∃ stmt, result = .ok stmt) ∧ reader'.Within (Token.firstEnd tokens) ∧
        reader.current < reader'.current := by
  have hleft : (tokens.takeWhile (!·.isEnd)).drop reader.current ≠ [] := by
    rw [ne_eq, List.drop_eq_nil_iff, ← Token.firstEnd_eq]
    exact Nat.not_le.mpr hbefore
  obtain ⟨reader', hrun, hat, -, hpast⟩ := declaration_declares (Nat.lt_succ_self _)
    (Token.supplied tokens) _ reader _ (Nat.lt_succ_self _) h.at_drop hleft
  exact .intro (fun _ _ hle => (nested_refines hle).2) hrun
    ⟨⟨_, rfl⟩, hat.within, hpast rfl _ rfl⟩

end Runs

end Descent

/-- Parsing of any tokens comes to an end, with what the rules of the grammar compute, and neither
moves nor looks past the first end mark, which is one of the tokens. Every declaration before that
mark passes over a token. Tokens with the same ones up to the first end mark are parsed alike, up to
identities. -/
theorem parsing_total (tokens : List Token) (n : NodeId) :
    Token.firstEnd tokens < (Token.supplied tokens).length ∧
      (Descent.Ends Descent.program (Token.supplied tokens) (.start n) fun result reader =>
        result = .ok (parseProgram tokens n).statements ∧
          reader.reports = (parseProgram tokens n).errors ∧
          reader.nextId = (parseProgram tokens n).nextId ∧
          reader.current = Token.firstEnd tokens ∧ reader.Within (Token.firstEnd tokens)) ∧
      (Descent.Ends Descent.soleExpression (Token.supplied tokens) (.start n) fun result reader =>
        result = (parseExpression tokens n).1 ∧ reader.Within (Token.firstEnd tokens)) ∧
      (∀ reader : Reader, reader.Within (Token.firstEnd tokens) →
        reader.current < Token.firstEnd tokens →
          Descent.Ends Descent.declaration (Token.supplied tokens) reader fun result reader' =>
            (∃ stmt, result = .ok stmt) ∧ reader'.Within (Token.firstEnd tokens) ∧
              reader.current < reader'.current) ∧
      ∀ (tokens' : List Token) (n' : NodeId), Token.upToEnd tokens' = Token.upToEnd tokens →
        (parseProgram tokens' n').statements.map Stmt.unnumbered =
            (parseProgram tokens n).statements.map Stmt.unnumbered ∧
          (parseProgram tokens' n').errors = (parseProgram tokens n).errors ∧
          (parseExpression tokens' n').1.map Expr.unnumbered =
            (parseExpression tokens n).1.map Expr.unnumbered := by
  refine ⟨Token.firstEnd_lt tokens, Descent.program_ends tokens n,
    Descent.soleExpression_ends tokens n, fun reader => Descent.declaration_ends,
    fun tokens' n' hsame => ?_⟩
  have hprogram : parseProgram tokens' 0 = parseProgram tokens 0 := by
    rw [parseProgram_eq, Cursor.ofTokens_congr hsame, parseProgram_eq]
  have hexpression : (parseExpression tokens' 0).1 = (parseExpression tokens 0).1 := by
    rw [parseExpression_fst, Cursor.ofTokens_congr hsame, parseExpression_fst]
  obtain ⟨hstatements', herrors'⟩ := parseProgram_renumbered tokens' n'
  obtain ⟨hstatements, herrors⟩ := parseProgram_renumbered tokens n
  rw [hstatements', herrors', parseExpression_renumbered tokens' n', hprogram, hexpression]
  exact ⟨hstatements.symm, herrors.symm, (parseExpression_renumbered tokens n).symm⟩

end TreeWalk
