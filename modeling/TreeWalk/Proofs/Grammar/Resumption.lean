import TreeWalk.Proofs.Grammar.Wording
import TreeWalk.Proofs.Indexed.Totality

/-! Where parsing goes on when a statement lacks its semicolon. The token that stands in the place
of the semicolon is reported, and it is dropped even if a statement starts with it, so what is left
of that statement is parsed as if it stood by itself. -/

namespace TreeWalk
open Grammar

/-- At least one token is dropped. -/
theorem Cursor.resumption_suffix (t : Token) (ts : List Token) : resumption (t :: ts) <:+ ts := by
  induction ts generalizing t with
  | nil => exact List.suffix_nil.mpr (resumption_last t)
  | cons u ts ih =>
    rw [resumption]
    split
    · exact List.suffix_rfl
    · exact (ih u).trans (List.suffix_cons u ts)

/-- The end mark of tokens is the one of their last part. -/
theorem Cursor.stopOf_suffix {tokens rest : List Token} (htokens : ∀ t ∈ tokens, t.isEnd = false)
    (hs : rest <:+ tokens) (hrest : rest ≠ []) (ends : List { t : Token // t.isEnd = true }) :
    stopOf (tokens ++ ends.map Subtype.val) = stopOf (rest ++ ends.map Subtype.val) := by
  obtain ⟨before, rfl⟩ := hs
  have hfind (ts : List Token) (h : ∀ t ∈ ts, t.isEnd = false) :
      (ts ++ ends.map Subtype.val).find? Token.isEnd = (ends.map Subtype.val).find? Token.isEnd := by
    rw [List.find?_append, List.find?_eq_none.mpr fun t ht => by simp [h t ht], Option.none_or]
  have hlast : (before ++ rest ++ ends.map Subtype.val).getLast? =
      (rest ++ ends.map Subtype.val).getLast? := by
    have hne : rest ++ ends.map Subtype.val ≠ [] := List.append_ne_nil_of_left_ne_nil hrest _
    rw [List.append_assoc, List.getLast?_append, List.getLast?_eq_some_getLast hne, Option.some_or]
  have hinside : ∀ t ∈ rest, t.isEnd = false := fun t ht => htokens t (List.mem_append_right _ ht)
  rw [stopOf, stopOf, hfind _ htokens, hfind _ hinside, hlast]

/-- Tokens to be parsed that end at the end mark and not before. -/
structure Cursor.Ended (s : Cursor) : Prop where
  stop : s.stop.isEnd = true
  inside : ∀ t ∈ s.rest, t.isEnd = false

namespace Grammar

variable {s : List Token} {what : Expectation}

/-- The tokens of a statement up to the semicolon it should end with, and what is missed when they
end there. -/
inductive Unfinished : List Token → Expectation → Prop where
  | expression {n n' ts e} : Phrase .assignment n ts e n' →
      Unfinished ts .semicolonAfterExpression
  | print {n n' ts e} {keyword : Token} : keyword.kind = .keyword .print_ →
      Phrase .assignment n ts e n' → Unfinished (keyword :: ts) .semicolonAfterValue
  | initialized {n n' ts e} {keyword name equals : Token} : keyword.kind = .keyword .var_ →
      name.kind = .identifier → equals.kind = .punctuator .equal →
      Phrase .assignment n ts e n' →
      Unfinished (keyword :: name :: equals :: ts) .semicolonAfterDeclaration

/-- With a semicolon it is a statement. -/
theorem Unfinished.finished (h : Unfinished s what) {semicolon : Token}
    (hsemicolon : semicolon.kind = .punctuator .semicolon) :
    ∃ n stmt n', Declaration .nearest n (s ++ [semicolon]) stmt false n' := by
  cases h with
  | expression h => exact ⟨_, _, _, .statement (.expression (.intro h hsemicolon))⟩
  | print hk h => exact ⟨_, _, _, .statement (.print hk h hsemicolon)⟩
  | initialized hk hname hequals h =>
    exact ⟨_, _, _, .binding (.initialized hk hname hequals h hsemicolon)⟩

theorem Unfinished.worded (h : Unfinished s what) : ∃ m, Worded s m := by
  cases h with
  | expression h => exact ⟨_, h.worded⟩
  | print hk h => exact ⟨_, h.worded.keyword hk (by simp)⟩
  | initialized hk hname hequals h =>
    exact ⟨_, ((h.worded.punctuator hequals).identifier hname).keyword hk (by simp)⟩

end Grammar

namespace Rule

section Rounds

/-- A declaration takes a token at least, whether or not it parses. -/
theorem declaration_shortens {s : Cursor} (h : Cursor.Ended s) (hleft : s.rest ≠ []) :
    Cursor.Ended (declaration s).2 ∧ (declaration s).2.rest.length < s.rest.length := by
  let reader : Reader := ⟨0, [], s.reports, s.nextId⟩
  have hat : reader.At (s.rest ++ [s.stop]) s.rest.length s := by
    refine ⟨List.prefix_rfl, h.stop, h.inside, Nat.zero_add _, ?_, rfl, rfl⟩
    intro i hi
    exact absurd hi List.not_mem_nil
  have hdeclares := Descent.declaration_declares (Nat.lt_succ_self (s.rest.length + 1 + 1))
  obtain ⟨reader', -, hat', -, hlt⟩ :=
    hdeclares (s.rest ++ [s.stop]) s.rest.length reader s (Nat.lt_succ_self _) hat hleft
  have hmoved : 0 < reader'.current := hlt rfl _ rfl
  have hends : reader'.current + (declaration s).2.rest.length = s.rest.length := hat'.ends
  exact ⟨⟨hat'.stop, hat'.inside⟩, by omega⟩

/-- The bound on the number of declarations does not matter as long as it is enough for the tokens
left. -/
theorem declarationsUntil_bound (closes : Token → Bool) {bound bound' : Nat} {s : Cursor}
    (h : Cursor.Ended s) (hbound : s.rest.length ≤ bound) (hbound' : s.rest.length ≤ bound') :
    declarationsUntil closes declaration bound s =
      declarationsUntil closes declaration bound' s := by
  induction bound generalizing bound' s with
  | zero =>
    have hrest : s.rest = [] := List.length_eq_zero_iff.mp (Nat.le_zero.mp hbound)
    cases bound' with
    | zero => rfl
    | succ bound' =>
      rw [declarationsUntil_succ_apply, if_pos (by rw [hrest]; rfl)]
      rfl
  | succ bound ih =>
    by_cases hrest : s.rest = []
    · cases bound' with
      | zero =>
        rw [declarationsUntil_succ_apply, if_pos (by rw [hrest]; rfl)]
        rfl
      | succ bound' =>
        rw [declarationsUntil_succ_apply, declarationsUntil_succ_apply,
          if_pos (by rw [hrest]; rfl), if_pos (by rw [hrest]; rfl)]
    · have hpositive : 0 < s.rest.length := List.length_pos_iff.mpr hrest
      obtain ⟨bound', rfl⟩ := Nat.exists_eq_succ_of_ne_zero (show bound' ≠ 0 by omega)
      obtain ⟨hended, hlt⟩ := declaration_shortens h hrest
      rw [declarationsUntil_succ_apply, declarationsUntil_succ_apply]
      split
      · rfl
      · cases hfirst : declaration s with
        | mk first s₁ =>
          rw [hfirst] at hended hlt
          have hothers : declarationsUntil closes declaration bound s₁ =
              declarationsUntil closes declaration bound' s₁ :=
            ih hended (Nat.le_of_lt_succ (Nat.lt_of_lt_of_le hlt hbound))
              (Nat.le_of_lt_succ (Nat.lt_of_lt_of_le hlt hbound'))
          simp only [hothers]

end Rounds

section Unfinished

variable {n : NodeId} {s ts : List Token} {k : Token} {what : Expectation}

theorem not_semicolon_of_starts (hk : k.startsStatement = true) :
    k.isPunctuator .semicolon = false := by
  apply Token.isPunctuator_eq_false
  intro hkind
  rw [(Plain.of_punctuator hkind).starts] at hk
  cases hk

/-- A word that starts a statement does not continue an expression. -/
theorem stops_starting (hk : k.startsStatement = true) : Stops .assignment (k :: ts) := by
  intro t ht other _ hcontinues
  obtain rfl : k = t := by simpa using ht
  have hplain : Plain k := by
    rcases Level.continuations_cases hcontinues with hequal | hparen | hoperator
    · exact .of_punctuator hequal
    · exact .of_punctuator hparen
    · exact .of_operator hoperator
  rw [hplain.starts] at hk
  cases hk

/-- The rule for declarations takes it whole and then looks for the semicolon. -/
theorem unfinished_becomes (h : Unfinished s what) (hk : k.startsStatement = true)
    (ts : List Token) (n : NodeId) (statement : Rule Stmt) (block : Rule (List Stmt)) :
    ∃ stmt n', Becomes (declarationWith statement block) (s ++ k :: ts) n
      (discard (expect (·.isPunctuator .semicolon) what) >>= fun _ => pure stmt) (k :: ts) n' := by
  have hstops : Stops .assignment (k :: ts) := stops_starting hk
  cases h with
  | expression h =>
    obtain ⟨e, n', hphrase⟩ := h.rebased n
    obtain ⟨t, ts', rfl, hstart, -⟩ := hphrase.head
    have hno : ∀ word ∈ [Keyword.fun_, .var_, .for_, .if_, .print_, .return_, .while_],
        t.kind ≠ .keyword word := by
      intro word hword hkind
      rw [hkind] at hstart
      simp only [List.mem_cons, List.not_mem_nil, or_false] at hword
      rcases hword with rfl | rfl | rfl | rfl | rfl | rfl | rfl <;> cases hstart
    have hbrace : t.kind ≠ .punctuator .leftBrace := by
      intro hkind
      rw [hkind] at hstart
      cases hstart
    have htakes : Takes Rule.expression (t :: ts' ++ k :: ts) n e (k :: ts) n' :=
      expression_takes hphrase hstops
    rw [List.cons_append] at htakes ⊢
    refine ⟨.expression e, n', (declarationWith_expression hno hbrace).trans ?_⟩
    unfold expressionStatement
    exact Becomes.bind htakes
  | print hprint h =>
    obtain ⟨e, n', hphrase⟩ := h.rebased n
    refine ⟨.print e, n', ?_⟩
    rw [List.cons_append]
    refine ((declarationWith_other (by simp [hprint])).trans (statementWith_print hprint)).trans ?_
    unfold printStatement
    exact Becomes.bind (expression_takes hphrase hstops)
  | @initialized m m' us e₀ keyword name equals hvar hname hequals h =>
    obtain ⟨e, n', hphrase⟩ := h.rebased n
    rw [List.cons_append, List.cons_append, List.cons_append]
    refine ⟨.declare name (some e), n', (declarationWith_var hvar).trans ?_⟩
    unfold variableDeclaration
    refine (Becomes.bind (Takes.expect (Token.isIdentifier_iff.mpr hname))).trans ?_
    refine (Becomes.bind (Takes.accepts (Token.isPunctuator_iff.mpr hequals))).trans ?_
    exact Becomes.bind (expression_takes hphrase hstops).map

/-- The word after it is reported and dropped, and parsing goes on behind. -/
theorem program_unfinished (h : Unfinished s what) (hk : k.startsStatement = true) {stop : Token}
    (hended : Cursor.Ended ⟨k :: ts, stop, [], n⟩) :
    ∃ n', program ⟨s ++ k :: ts, stop, [], n⟩ =
      program ⟨Cursor.resumption (k :: ts), stop, [.syntactic k (.expected what)], n'⟩ := by
  obtain ⟨stmt, n', hbecomes⟩ := unfinished_becomes h hk ts n
    (statementUpTo (s ++ k :: ts).length) (blockOf (declarationUpTo (s ++ k :: ts).length))
  have hk' : k.isPunctuator .semicolon = false := not_semicolon_of_starts hk
  have hfirst : declaration ⟨s ++ k :: ts, stop, [], n⟩ = (none,
      ⟨Cursor.resumption (k :: ts), stop, [.syntactic k (.expected what)], n'⟩) := by
    rw [declaration, declarationUpTo_succ_apply]
    exact recovering_error ((hbecomes stop []).trans (semicolon_missing hk' stop []))
  have hopen : ¬(s ++ k :: ts).head?.all (fun _ => false) = true := by
    cases s <;> simp
  have hlength : (s ++ k :: ts).length = s.length + ts.length + 1 := by
    rw [List.length_append, List.length_cons, Nat.add_assoc]
  have hsuffix : Cursor.resumption (k :: ts) <:+ ts := Cursor.resumption_suffix k ts
  have hrest : Cursor.Ended
      ⟨Cursor.resumption (k :: ts), stop, [.syntactic k (.expected what)], n'⟩ :=
    ⟨hended.stop, fun t ht => hended.inside t (List.mem_cons_of_mem k (hsuffix.subset ht))⟩
  have hbound : (Cursor.resumption (k :: ts)).length ≤ s.length + ts.length :=
    Nat.le_trans hsuffix.length_le (Nat.le_add_left _ _)
  refine ⟨n', ?_⟩
  rw [program, hlength, declarationsUntil_succ_apply, if_neg hopen, hfirst]
  simp only [Option.toList_none, List.nil_append]
  exact declarationsUntil_bound _ hrest hbound (Nat.le_refl _)

end Unfinished

end Rule

section Programs

variable {s ts : List Token} {k : Token} {what : Expectation} {m m' : NodeId} {stmt : Stmt}
  {dangling : Bool}

theorem parseBefore_eq {tokens : List Token} {ends : List { t : Token // t.isEnd = true }}
    {n : NodeId} {stop : Token}
    (h : Cursor.ofTokens (tokens ++ ends.map Subtype.val) n = ⟨tokens, stop, [], n⟩) :
    parseBefore ends n tokens = ⟨(Rule.program ⟨tokens, stop, [], n⟩).1,
      (Rule.program ⟨tokens, stop, [], n⟩).2.reports,
      (Rule.program ⟨tokens, stop, [], n⟩).2.nextId⟩ := by
  rw [parseBefore, parseProgram_eq, h]

/-- The grammar derives what is parsed without a report. -/
theorem parseBefore_derived {tokens : List Token} (htokens : ∀ t ∈ tokens, t.isEnd = false)
    {ends : List { t : Token // t.isEnd = true }} {n : NodeId}
    (h : (parseBefore ends n tokens).errors = []) :
    Declarations .nearest n tokens (parseBefore ends n tokens).statements
      (parseBefore ends n tokens).nextId := by
  obtain ⟨stop, hcursor⟩ := Cursor.ofTokens_before htokens ends n
  have hstop : stop.isEnd = true := by
    rw [← show Cursor.stopOf (tokens ++ ends.map Subtype.val) = stop from
      congrArg Cursor.stop hcursor]
    exact Cursor.isEnd_stopOf _
  rw [parseBefore_eq hcursor] at h ⊢
  have hclean : Rule.Clean (liftM Rule.program) ⟨tokens, stop, [], n⟩
      (Rule.program ⟨tokens, stop, [], n⟩).1 (Rule.program ⟨tokens, stop, [], n⟩).2 :=
    ⟨Rule.liftM_apply _ _, h, hstop⟩
  exact (Rule.program_sound hclean).2

/-- The last part of some tokens is parsed in the same way before the end mark of all of them as
before its own. The two differ only if no token is left, and then nothing is reported at them. -/
theorem program_suffix {tokens rest : List Token} (htokens : ∀ t ∈ tokens, t.isEnd = false)
    (hs : rest <:+ tokens) (ends : List { t : Token // t.isEnd = true }) :
    let before (tokens : List Token) := Cursor.stopOf (tokens ++ ends.map Subtype.val)
    (Rule.program ⟨rest, before tokens, [], 0⟩).1 = (Rule.program ⟨rest, before rest, [], 0⟩).1 ∧
      (Rule.program ⟨rest, before tokens, [], 0⟩).2.reports =
        (Rule.program ⟨rest, before rest, [], 0⟩).2.reports := by
  dsimp only
  by_cases hempty : rest = []
  · rw [hempty]
    exact ⟨rfl, rfl⟩
  · rw [Cursor.stopOf_suffix htokens hs hempty ends]
    exact ⟨rfl, rfl⟩

/-- A statement without its semicolon, and then tokens that start another statement. The first of
them is reported, and all else is what parsing makes of the tokens that recovery leaves, by
themselves. -/
theorem parseBefore_unfinished (hs : Unfinished s what) (hk : k.startsStatement = true)
    (hend : ∀ t ∈ k :: ts, t.isEnd = false) (ends : List { t : Token // t.isEnd = true })
    (n : NodeId) :
    (parseBefore ends n (s ++ k :: ts)).errors = .syntactic k (.expected what) ::
        (parseBefore ends n (Cursor.resumption (k :: ts))).errors ∧
      (parseBefore ends n (s ++ k :: ts)).statements.map Stmt.unnumbered =
        (parseBefore ends n (Cursor.resumption (k :: ts))).statements.map Stmt.unnumbered := by
  obtain ⟨count, hworded⟩ := hs.worded
  have hinside : ∀ t ∈ s ++ k :: ts, t.isEnd = false := fun t ht =>
    (List.mem_append.mp ht).elim (hworded.no_end t) (hend t)
  have hsuffix : Cursor.resumption (k :: ts) <:+ k :: ts :=
    (Cursor.resumption_suffix k ts).trans (List.suffix_cons k ts)
  have hleft : ∀ t ∈ Cursor.resumption (k :: ts), t.isEnd = false := fun t ht =>
    hend t (hsuffix.subset ht)
  obtain ⟨stop, hwhole⟩ := Cursor.ofTokens_before hinside ends n
  obtain ⟨stop', hrest⟩ := Cursor.ofTokens_before hleft ends n
  have hstop : stop = Cursor.stopOf (s ++ k :: ts ++ ends.map Subtype.val) :=
    (congrArg Cursor.stop hwhole).symm
  have hstop' : stop' = Cursor.stopOf (Cursor.resumption (k :: ts) ++ ends.map Subtype.val) :=
    (congrArg Cursor.stop hrest).symm
  have hended : Cursor.Ended ⟨k :: ts, stop, [], n⟩ := by
    refine ⟨?_, hend⟩
    rw [hstop]
    exact Cursor.isEnd_stopOf _
  obtain ⟨n', hprogram⟩ := Rule.program_unfinished hs hk hended
  have hsame := program_suffix hinside (hsuffix.trans (List.suffix_append s _)) ends
  dsimp only at hsame
  rw [← hstop, ← hstop'] at hsame
  -- Reports made before and identities in use carry over to what is parsed of the rest.
  obtain ⟨hstatements, hreports⟩ := program_later (Cursor.resumption (k :: ts)) stop
    [.syntactic k (.expected what)] n'
  obtain ⟨hstatements', hreports'⟩ := program_later (Cursor.resumption (k :: ts)) stop' [] n
  constructor
  · calc (parseBefore ends n (s ++ k :: ts)).errors
      _ = (Rule.program ⟨s ++ k :: ts, stop, [], n⟩).2.reports := by
        rw [parseBefore_eq hwhole]
      _ = .syntactic k (.expected what) ::
          (Rule.program ⟨Cursor.resumption (k :: ts), stop, [], 0⟩).2.reports := by
        rw [hprogram, hreports, List.singleton_append]
      _ = .syntactic k (.expected what) ::
          (Rule.program ⟨Cursor.resumption (k :: ts), stop', [], n⟩).2.reports := by
        rw [hsame.2, hreports', List.nil_append]
      _ = .syntactic k (.expected what) ::
          (parseBefore ends n (Cursor.resumption (k :: ts))).errors := by
        rw [parseBefore_eq hrest]
  · calc (parseBefore ends n (s ++ k :: ts)).statements.map Stmt.unnumbered
      _ = (Rule.program ⟨s ++ k :: ts, stop, [], n⟩).1.map Stmt.unnumbered := by
        rw [parseBefore_eq hwhole]
      _ = (Rule.program ⟨Cursor.resumption (k :: ts), stop, [], 0⟩).1.map Stmt.unnumbered := by
        rw [hprogram, hstatements]
      _ = (Rule.program ⟨Cursor.resumption (k :: ts), stop', [], n⟩).1.map Stmt.unnumbered := by
        rw [hsame.1, hstatements']
      _ = (parseBefore ends n (Cursor.resumption (k :: ts))).statements.map Stmt.unnumbered := by
        rw [parseBefore_eq hrest]

/-- A statement that lacks its semicolon, and after it a whole one that starts with a word: the word
is reported, and it is dropped, with all up to a semicolon or another such word. What is left is
parsed by itself. It never is the whole statement without another report. -/
theorem parse_unfinished_then (hs : Unfinished s what)
    (ht : Declaration .nearest m (k :: ts) stmt dangling m') (hk : k.startsStatement = true)
    (ends : List { t : Token // t.isEnd = true }) (n : NodeId) :
    (parseBefore ends n (s ++ k :: ts)).errors = .syntactic k (.expected what) ::
        (parseBefore ends n (Cursor.resumption (k :: ts))).errors ∧
      (parseBefore ends n (s ++ k :: ts)).statements.map Stmt.unnumbered =
        (parseBefore ends n (Cursor.resumption (k :: ts))).statements.map Stmt.unnumbered ∧
      ¬((parseBefore ends n (s ++ k :: ts)).statements.map Stmt.unnumbered = [stmt.unnumbered] ∧
        (parseBefore ends n (s ++ k :: ts)).errors.length = 1) := by
  obtain ⟨herrors, hstatements⟩ := parseBefore_unfinished hs hk ht.worded.no_end ends n
  refine ⟨herrors, hstatements, ?_⟩
  rintro ⟨hkept, hone⟩
  -- With a single report, what is left is a text of its own, but it has too few words.
  have hclean : (parseBefore ends n (Cursor.resumption (k :: ts))).errors = [] := by
    rw [herrors, List.length_cons] at hone
    exact List.length_eq_zero_iff.mp (Nat.succ.inj hone)
  have hsuffix : Cursor.resumption (k :: ts) <:+ ts := Cursor.resumption_suffix k ts
  have hinside : ∀ t ∈ Cursor.resumption (k :: ts), t.isEnd = false := fun t hmem =>
    ht.worded.no_end t (List.mem_cons_of_mem k (hsuffix.subset hmem))
  have hwords : (Cursor.resumption (k :: ts)).countP Token.startsStatement = stmt.words := by
    have hderived := parseBefore_derived hinside hclean
    rw [hderived.worded.count, ← Stmt.wordsOfAll_unnumbered, ← hstatements, hkept]
    exact Stmt.words_unnumbered stmt
  have hfewer : (Cursor.resumption (k :: ts)).countP Token.startsStatement ≤
      ts.countP Token.startsStatement := hsuffix.sublist.countP_le
  have hmore : ts.countP Token.startsStatement + 1 = stmt.words := by
    rw [← ht.worded.count, List.countP_cons_of_pos hk]
  omega

/-- `print` and a name, which lack their semicolon. -/
def openPrint : List Token :=
  [⟨.keyword .print_, "print", 1⟩, ⟨.identifier, "a", 1⟩]

/-- The word that starts the statement after it. -/
def nextPrint : Token :=
  ⟨.keyword .print_, "print", 2⟩

/-- What that statement prints, up to its semicolon. -/
def printedName : List Token :=
  [⟨.identifier, "b", 2⟩, ⟨.punctuator .semicolon, ";", 2⟩]

theorem openPrint_unfinished : Unfinished openPrint .semicolonAfterValue :=
  .print (n := 0) rfl (.tighter rfl (Rule.phrase_name rfl 0))

theorem nextPrint_declaration : Declaration .nearest 0 (nextPrint :: printedName)
    (.print (.var 0 ⟨.identifier, "b", 2⟩)) false 1 := by
  have hname : Phrase .assignment 0 [⟨.identifier, "b", 2⟩] (.var 0 ⟨.identifier, "b", 2⟩) 1 :=
    .tighter rfl (Rule.phrase_name rfl 0)
  exact .statement (.print rfl hname rfl)

/-- Of `print a` and then `print b;` nothing is left to run. -/
theorem parse_unfinished_then_print :
    nextPrint.startsStatement = true ∧ Cursor.resumption (nextPrint :: printedName) = [] ∧
      (parseBefore [] 0 (openPrint ++ nextPrint :: printedName)).errors =
        [.syntactic nextPrint (.expected .semicolonAfterValue)] ∧
      (parseBefore [] 0 (openPrint ++ nextPrint :: printedName)).statements = [] := by
  have hstarts : nextPrint.startsStatement = true := rfl
  have hnone : Cursor.resumption (nextPrint :: printedName) = [] := rfl
  obtain ⟨herrors, hstatements, -⟩ :=
    parse_unfinished_then openPrint_unfinished nextPrint_declaration hstarts [] 0
  refine ⟨hstarts, hnone, herrors, ?_⟩
  rw [hnone] at hstatements
  exact List.map_eq_nil_iff.mp hstatements

/-- So the second statement is not always kept, with a single report at its first token. -/
theorem next_statement_not_kept :
    ¬∀ (s ts : List Token) (k : Token) (what : Expectation) (m m' n : NodeId) (stmt : Stmt)
        (dangling : Bool) (ends : List { t : Token // t.isEnd = true }),
      Unfinished s what → Declaration .nearest m (k :: ts) stmt dangling m' →
      k.startsStatement = true →
      (parseBefore ends n (s ++ k :: ts)).statements.map Stmt.unnumbered = [stmt.unnumbered] ∧
        ∃ cause, (parseBefore ends n (s ++ k :: ts)).errors = [.syntactic k cause] := by
  intro hkept
  have hone := (hkept _ _ _ _ _ _ 0 _ _ [] openPrint_unfinished nextPrint_declaration rfl).1
  have hnone : (parseBefore [] 0 (openPrint ++ nextPrint :: printedName)).statements = [] := rfl
  rw [hnone] at hone
  cases hone

end Programs

end TreeWalk
