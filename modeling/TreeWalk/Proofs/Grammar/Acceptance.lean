import TreeWalk.Proofs.Grammar.ProgramSoundness
import TreeWalk.Proofs.Grammar.StatementCompleteness

/-! Programs without reports are those that the grammar derives. The grammar by itself lets an
alternative belong to any condition before it. Every such derivation has another one over the same
tokens in which alternatives belong to the nearest condition, and this one has the tree that is
parsed. -/

namespace TreeWalk.Grammar

section Attachment

/-- Another reading of a statement and an alternative after it, as one statement. The alternative
goes to the last condition that can have it. -/
theorem Statement.attach {n n₁ n' : Nat} {ts ts' : List Token} {s e : Stmt} {open_ dangling : Bool}
    {alternative : Token} (h : Statement .nearest n ts s open_ n₁) (hopen : open_ = true)
    (halternative : alternative.kind = .keyword .else_)
    (he : Statement .nearest n₁ ts' e dangling n') :
    ∃ s' dangling', Statement .nearest n (ts ++ alternative :: ts') s' dangling' n' := by
  match h with
  | .expression _ | .print _ _ _ | .returnFrom _ _ _ | .block _ _ _ => cases hopen
  | .whileLoop hk hopening hcondition hclosing hbody =>
    obtain ⟨body', dangling', hbody'⟩ := hbody.attach hopen halternative he
    have hwhole := Statement.whileLoop hk hopening hcondition hclosing hbody'
    exact ⟨_, dangling', by simpa using hwhole⟩
  | .ifThen hk hopening hcondition hclosing hthen =>
    next m ts₁ ts₂ condition thenBranch inner keyword opening closing =>
    cases hinner : inner with
    | true =>
      -- A condition inside the branch is nearer than this one.
      obtain ⟨branch', dangling', hthen'⟩ := hthen.attach hinner halternative he
      have hwhole := Statement.ifThen hk hopening hcondition hclosing hthen'
      exact ⟨_, true, by simpa using hwhole⟩
    | false =>
      have hwhole := Statement.ifElse hk hopening hcondition hclosing hthen (fun _ => hinner)
        halternative he
      exact ⟨_, dangling, by simpa using hwhole⟩
  | .ifElse hk hopening hcondition hclosing hthen hclosed halternative' helse =>
    obtain ⟨branch', dangling', helse'⟩ := helse.attach hopen halternative he
    have hwhole :=
      Statement.ifElse hk hopening hcondition hclosing hthen hclosed halternative' helse'
    exact ⟨_, dangling', by simpa using hwhole⟩
  | .forLoop hk hopening hstart hcondition hsemicolon hincrement hclosing hbody _ =>
    obtain ⟨body', dangling', hbody'⟩ := hbody.attach hopen halternative he
    have hwhole := Statement.forLoop hk hopening hstart hcondition hsemicolon hincrement hclosing
      hbody' (loopTree_iff.mpr rfl)
    exact ⟨_, dangling', by simpa using hwhole⟩

mutual

/-- Alternatives can be moved to the nearest conditions, one statement after the other from the
inside out. -/
theorem Statement.nearest_of_any {n n' : Nat} {ts : List Token} {s : Stmt} {dangling : Bool}
    (h : Statement .any n ts s dangling n') :
    ∃ s' dangling', Statement .nearest n ts s' dangling' n' := by
  match h with
  | .expression h => exact ⟨_, _, .expression h⟩
  | .print hk h hsemicolon => exact ⟨_, _, .print hk h hsemicolon⟩
  | .returnFrom hk h hsemicolon => exact ⟨_, _, .returnFrom hk h hsemicolon⟩
  | .whileLoop hk hopening hcondition hclosing hbody =>
    obtain ⟨_, _, hbody'⟩ := hbody.nearest_of_any
    exact ⟨_, _, .whileLoop hk hopening hcondition hclosing hbody'⟩
  | .ifThen hk hopening hcondition hclosing hthen =>
    obtain ⟨_, _, hthen'⟩ := hthen.nearest_of_any
    exact ⟨_, _, .ifThen hk hopening hcondition hclosing hthen'⟩
  | .ifElse hk hopening hcondition hclosing hthen _ halternative helse =>
    obtain ⟨branch, dangling₁, hthen'⟩ := hthen.nearest_of_any
    obtain ⟨_, dangling₂, helse'⟩ := helse.nearest_of_any
    cases hdangling : dangling₁ with
    | false =>
      exact ⟨_, _, .ifElse hk hopening hcondition hclosing hthen' (fun _ => hdangling)
        halternative helse'⟩
    | true =>
      -- The first branch takes the alternative, and the whole is left without one.
      obtain ⟨_, _, hattached⟩ := hthen'.attach hdangling halternative helse'
      exact ⟨_, _, .ifThen hk hopening hcondition hclosing hattached⟩
  | .forLoop hk hopening hstart hcondition hsemicolon hincrement hclosing hbody _ =>
    obtain ⟨_, _, hbody'⟩ := hbody.nearest_of_any
    exact ⟨_, _, .forLoop hk hopening hstart hcondition hsemicolon hincrement hclosing hbody'
      (loopTree_iff.mpr rfl)⟩
  | .block hopening hbody hclosing =>
    obtain ⟨_, hbody'⟩ := hbody.nearest_of_any
    exact ⟨_, _, .block hopening hbody' hclosing⟩

theorem Declaration.nearest_of_any {n n' : Nat} {ts : List Token} {s : Stmt} {dangling : Bool}
    (h : Declaration .any n ts s dangling n') :
    ∃ s' dangling', Declaration .nearest n ts s' dangling' n' := by
  match h with
  | .function hk hname hopening hparams hclosing hopeningBrace hbody hclosingBrace =>
    obtain ⟨_, hbody'⟩ := hbody.nearest_of_any
    exact ⟨_, _,
      .function hk hname hopening hparams hclosing hopeningBrace hbody' hclosingBrace⟩
  | .binding h => exact ⟨_, _, .binding h⟩
  | .statement h =>
    obtain ⟨_, _, h'⟩ := h.nearest_of_any
    exact ⟨_, _, .statement h'⟩

theorem Declarations.nearest_of_any {n n' : Nat} {ts : List Token} {body : List Stmt}
    (h : Declarations .any n ts body n') : ∃ body', Declarations .nearest n ts body' n' := by
  match h with
  | .nil => exact ⟨_, .nil⟩
  | .cons hfirst hothers =>
    obtain ⟨_, _, hfirst'⟩ := hfirst.nearest_of_any
    obtain ⟨_, hothers'⟩ := hothers.nearest_of_any
    exact ⟨_, .cons hfirst' hothers'⟩

end

mutual

theorem Statement.any_of_nearest {n n' : Nat} {ts : List Token} {s : Stmt} {dangling : Bool}
    (h : Statement .nearest n ts s dangling n') : Statement .any n ts s dangling n' := by
  match h with
  | .expression h => exact .expression h
  | .print hk h hsemicolon => exact .print hk h hsemicolon
  | .returnFrom hk h hsemicolon => exact .returnFrom hk h hsemicolon
  | .whileLoop hk hopening hcondition hclosing hbody =>
    exact .whileLoop hk hopening hcondition hclosing hbody.any_of_nearest
  | .ifThen hk hopening hcondition hclosing hthen =>
    exact .ifThen hk hopening hcondition hclosing hthen.any_of_nearest
  | .ifElse hk hopening hcondition hclosing hthen _ halternative helse =>
    exact .ifElse hk hopening hcondition hclosing hthen.any_of_nearest (fun h => by cases h)
      halternative helse.any_of_nearest
  | .forLoop hk hopening hstart hcondition hsemicolon hincrement hclosing hbody htree =>
    exact .forLoop hk hopening hstart hcondition hsemicolon hincrement hclosing
      hbody.any_of_nearest htree
  | .block hopening hbody hclosing => exact .block hopening hbody.any_of_nearest hclosing

theorem Declaration.any_of_nearest {n n' : Nat} {ts : List Token} {s : Stmt} {dangling : Bool}
    (h : Declaration .nearest n ts s dangling n') : Declaration .any n ts s dangling n' := by
  match h with
  | .function hk hname hopening hparams hclosing hopeningBrace hbody hclosingBrace =>
    exact .function hk hname hopening hparams hclosing hopeningBrace hbody.any_of_nearest
      hclosingBrace
  | .binding h => exact .binding h
  | .statement h => exact .statement h.any_of_nearest

theorem Declarations.any_of_nearest {n n' : Nat} {ts : List Token} {body : List Stmt}
    (h : Declarations .nearest n ts body n') : Declarations .any n ts body n' := by
  match h with
  | .nil => exact .nil
  | .cons hfirst hothers => exact .cons hfirst.any_of_nearest hothers.any_of_nearest

end

end Attachment

section Programs

variable {ts : List Token} {stop : Token} {n : Nat}

theorem ofTokens_append (hts : ∀ t ∈ ts, t.isEnd = false) (hstop : stop.isEnd = true) :
    Cursor.ofTokens (ts ++ [stop]) n = ⟨ts, stop, [], n⟩ := by
  have htake : (ts ++ [stop]).takeWhile (!·.isEnd) = ts := by
    rw [List.takeWhile_append_of_pos fun t ht => by simp [hts t ht]]
    simp [hstop]
  have hfind : (ts ++ [stop]).find? Token.isEnd = some stop := by
    rw [List.find?_append, List.find?_eq_none.mpr fun t ht => by simp [hts t ht]]
    simp [hstop]
  rw [Cursor.ofTokens, htake, Cursor.stopOf, hfind]
  rfl

/-- Parsing without reports and deriving with the nearest attachment are the same relation. -/
theorem parseProgram_eq_iff (hts : ∀ t ∈ ts, t.isEnd = false) (hstop : stop.isEnd = true)
    {body : List Stmt} {n' : Nat} :
    parseProgram (ts ++ [stop]) n = ⟨body, [], n'⟩ ↔ Declarations .nearest n ts body n' := by
  constructor
  · intro h
    rw [parseProgram, ofTokens_append hts hstop] at h
    obtain ⟨parsed, s', hs⟩ : ∃ parsed s', Rule.program ⟨ts, stop, [], n⟩ = (parsed, s') :=
      ⟨_, _, rfl⟩
    rw [hs] at h
    simp only [Parsed.mk.injEq] at h
    obtain ⟨rfl, hreports, rfl⟩ := h
    have hclean : Rule.Clean (liftM Rule.program) ⟨ts, stop, [], n⟩ parsed s' := by
      refine ⟨?_, hreports, hstop⟩
      rw [Rule.liftM_apply, hs]
    exact (Rule.program_sound hclean).2
  · intro h
    have htakes := Rule.Takes.liftM_iff.mp (Rule.program_takes h) stop []
    rw [parseProgram, ofTokens_append hts hstop, htakes]

/-- A program is parsed without a report exactly if the grammar derives it, and what is parsed then
is the only tree of a derivation in which alternatives belong to the nearest conditions. -/
theorem parseProgram_accepts_iff (hts : ∀ t ∈ ts, t.isEnd = false) (hstop : stop.isEnd = true) :
    ((parseProgram (ts ++ [stop]) n).errors = [] ↔ ∃ body n', Declarations .any n ts body n') ∧
      ∀ body n', parseProgram (ts ++ [stop]) n = ⟨body, [], n'⟩ ↔
        Declarations .nearest n ts body n' := by
  refine ⟨⟨fun h => ?_, fun ⟨body, n', h⟩ => ?_⟩, fun body n' => parseProgram_eq_iff hts hstop⟩
  · cases hparsed : parseProgram (ts ++ [stop]) n with
    | mk body errors n' =>
      rw [hparsed] at h
      simp only at h
      subst h
      exact ⟨body, n', ((parseProgram_eq_iff hts hstop).mp hparsed).any_of_nearest⟩
  · obtain ⟨body', h'⟩ := h.nearest_of_any
    rw [(parseProgram_eq_iff hts hstop).mpr h']

/-- A loop with all its clauses, in it two conditions, one inside the other, and one alternative. -/
def loopedConditions : List Token :=
  let word (k : Keyword) : Token := ⟨.keyword k, "", 1⟩
  let mark (p : Punctuator) : Token := ⟨.punctuator p, "", 1⟩
  let name : Token := ⟨.identifier, "i", 1⟩
  [word .for_, mark .leftParen, word .var_, name, mark .equal, word .true_, mark .semicolon,
    name, mark .semicolon, name, mark .equal, word .nil_, mark .rightParen,
    word .if_, mark .leftParen, word .true_, mark .rightParen,
    word .if_, mark .leftParen, word .false_, mark .rightParen,
    word .return_, mark .semicolon, word .else_, word .return_, mark .semicolon]

theorem parseProgram_accepts_loopedConditions :
    (∀ t ∈ loopedConditions, t.isEnd = false) ∧ (Token.endMark 1).isEnd = true ∧
      Declarations .nearest 0 loopedConditions
        [.block [.declare ⟨.identifier, "i", 1⟩ (some (.literal (.bool true))),
          .whileLoop (.var 0 ⟨.identifier, "i", 1⟩) (.block
            [.ifThen (.literal (.bool true)) (.ifElse (.literal (.bool false))
              (.returnFrom ⟨.keyword .return_, "", 1⟩ none)
              (.returnFrom ⟨.keyword .return_, "", 1⟩ none)),
            .expression (.assign 2 ⟨.identifier, "i", 1⟩ (.literal .nil))])]] 3 := by
  have hts : ∀ t ∈ loopedConditions, t.isEnd = false := by decide
  have hstop : (Token.endMark 1).isEnd = true := rfl
  refine ⟨hts, hstop, ((parseProgram_accepts_iff hts hstop).2 _ _).mp ?_⟩
  rfl

end Programs

end TreeWalk.Grammar
