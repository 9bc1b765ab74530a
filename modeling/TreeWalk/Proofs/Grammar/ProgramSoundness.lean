import TreeWalk.Proofs.Grammar.StatementSoundness

/-! What a program takes without any report is what the grammar derives. Recovery reports, so it
has no part in a clean run. -/

namespace TreeWalk.Rule
open Grammar

section Statements

variable {statement : Rule Stmt} {block : Rule (List Stmt)}

/-- A rule that takes a whole statement which no alternative can follow. -/
theorem closed_of_sound {r : Rule Stmt} (words : List Token)
    (h : Sound (fun n ts stmt n' => Statement .nearest n (words ++ ts) stmt false n') r) :
    SoundAfter words r := by
  intro s stmt s' hc
  obtain ⟨ts, hr, hs⟩ := h s stmt s' hc
  exact ⟨ts, false, hr, hs, fun hf => absurd hf (by decide)⟩

/-- The words that a statement starts with and what is taken after them make up the statement. -/
theorem SoundAfter.prepend {r : Rule Stmt} {words : List Token} (hr : SoundAfter words r)
    {s s₁ s' : Cursor} {stmt : Stmt} (hs : s.rest = words ++ s₁.rest) (hn : s₁.nextId = s.nextId)
    (h : Clean r s₁ stmt s') :
    ∃ ts dangling, s.rest = ts ++ s'.rest ∧
      Statement .nearest s.nextId ts stmt dangling s'.nextId ∧
      (dangling = true → ∀ t ∈ s'.rest.head?, t.kind ≠ .keyword .else_) := by
  obtain ⟨ts, dangling, hts, hstmt, helse⟩ := hr s₁ stmt s' h
  rw [hn] at hstmt
  exact ⟨words ++ ts, dangling, by rw [hs, hts, List.append_assoc], hstmt, helse⟩

theorem block_sound [Grows block] (hb : SoundBlock block) {opening : Token}
    (hk : opening.kind = .punctuator .leftBrace) :
    SoundAfter [opening] (Stmt.block <$> block) := by
  apply closed_of_sound [opening]
  intro s stmt s' h
  obtain ⟨body, h₁, rfl⟩ := h.of_map
  obtain ⟨_, hr, ts, closing, rfl, hclosing, hbody⟩ := hb _ _ _ h₁
  refine ⟨ts ++ [closing], hr, ?_⟩
  exact .block hk hbody hclosing

theorem statementWith_sound [Grows statement] [Grows block] (hs : SoundStatement statement)
    (hb : SoundBlock block) : SoundStatement (statementWith statement block) := by
  intro s stmt s' h
  unfold statementWith at h
  obtain ⟨isFor, s₁, h₁, h₂⟩ := h.of_bind_of_grows fun isFor => by
    refine Grows.ite inferInstance (Grows.bind inferInstance fun isIf => ?_)
    refine Grows.ite inferInstance (Grows.bind inferInstance fun isPrint => ?_)
    refine Grows.ite inferInstance (Grows.bind inferInstance fun keyword => ?_)
    cases keyword <;> infer_instance
  rcases h₁.of_accepts with ⟨rfl, keyword, hk, hr, hn⟩ | ⟨rfl, rfl⟩
  · exact (forStatement_sound hs (Token.isKeyword_iff.mp hk)).prepend hr hn h₂
  simp only [Bool.false_eq_true, ↓reduceIte] at h₂
  obtain ⟨isIf, s₂, h₃, h₄⟩ := h₂.of_bind_of_grows fun isIf => by
    refine Grows.ite inferInstance (Grows.bind inferInstance fun isPrint => ?_)
    refine Grows.ite inferInstance (Grows.bind inferInstance fun keyword => ?_)
    cases keyword <;> infer_instance
  rcases h₃.of_accepts with ⟨rfl, keyword, hk, hr, hn⟩ | ⟨rfl, rfl⟩
  · exact (ifStatement_sound hs (Token.isKeyword_iff.mp hk)).prepend hr hn h₄
  simp only [Bool.false_eq_true, ↓reduceIte] at h₄
  obtain ⟨isPrint, s₃, h₅, h₆⟩ := h₄.of_bind_of_grows fun isPrint => by
    refine Grows.ite inferInstance (Grows.bind inferInstance fun keyword => ?_)
    cases keyword <;> infer_instance
  rcases h₅.of_accepts with ⟨rfl, keyword, hk, hr, hn⟩ | ⟨rfl, rfl⟩
  · have hprint := printStatement_sound (Token.isKeyword_iff.mp hk)
    exact (closed_of_sound [keyword] hprint).prepend hr hn h₆
  simp only [Bool.false_eq_true, ↓reduceIte] at h₆
  obtain ⟨o, s₄, h₇, h₈⟩ := h₆.of_bind_of_grows fun o => by cases o <;> infer_instance
  rcases h₇.of_accept? with ⟨keyword, rfl, hk, hr, hn⟩ | ⟨rfl, rfl⟩
  · have hreturn := returnStatement_sound (Token.isKeyword_iff.mp hk)
    exact (closed_of_sound [keyword] hreturn).prepend hr hn h₈
  obtain ⟨isWhile, s₅, h₉, h₁₀⟩ := h₈.of_bind
  rcases h₉.of_accepts with ⟨rfl, keyword, hk, hr, hn⟩ | ⟨rfl, rfl⟩
  · exact (whileStatement_sound hs (Token.isKeyword_iff.mp hk)).prepend hr hn h₁₀
  simp only [Bool.false_eq_true, ↓reduceIte] at h₁₀
  obtain ⟨isBlock, s₆, h₁₁, h₁₂⟩ := h₁₀.of_bind
  rcases h₁₁.of_accepts with ⟨rfl, opening, hk, hr, hn⟩ | ⟨rfl, rfl⟩
  · simp only [↓reduceIte] at h₁₂
    rw [← map_eq_pure_bind] at h₁₂
    exact (block_sound hb (Token.isPunctuator_iff.mp hk)).prepend hr hn h₁₂
  · obtain ⟨ts, hr, hstmt⟩ := expressionStatement_sound _ _ _ h₁₂
    exact ⟨ts, false, hr, .expression hstmt, fun hf => absurd hf (by decide)⟩

theorem declarationWith_sound [Grows statement] [Grows block] (hs : SoundStatement statement)
    (hb : SoundBlock block) :
    Sound (fun n ts stmt n' => ∃ dangling, Declaration .nearest n ts stmt dangling n')
      (declarationWith statement block) := by
  intro s stmt s' h
  unfold declarationWith at h
  obtain ⟨isFunction, s₁, h₁, h₂⟩ := h.of_bind
  rcases h₁.of_accepts with ⟨rfl, keyword, hk, hr, hn⟩ | ⟨rfl, rfl⟩
  · obtain ⟨ts, hts, hdecl⟩ :=
      functionDeclaration_sound hb (Token.isKeyword_iff.mp hk) s₁ stmt s' h₂
    rw [hn] at hdecl
    exact ⟨keyword :: ts, by rw [hr, hts]; rfl, false, hdecl⟩
  simp only [Bool.false_eq_true, ↓reduceIte] at h₂
  obtain ⟨isVariable, s₂, h₃, h₄⟩ := h₂.of_bind
  rcases h₃.of_accepts with ⟨rfl, keyword, hk, hr, hn⟩ | ⟨rfl, rfl⟩
  · obtain ⟨ts, hts, hdecl⟩ :=
      variableDeclaration_sound (Token.isKeyword_iff.mp hk) s₂ stmt s' h₄
    rw [hn] at hdecl
    exact ⟨keyword :: ts, by rw [hr, hts]; rfl, false, .binding hdecl⟩
  · obtain ⟨ts, dangling, hts, hstmt, -⟩ := statementWith_sound hs hb _ _ _ h₄
    exact ⟨ts, hts, dangling, .statement hstmt⟩

end Statements

section Recovery

variable {declaration : StateM Cursor (Option Stmt)} {closes : Token → Bool}

/-- A clean step of a rule for declarations leaves none out. -/
def SoundDeclaration (declaration : StateM Cursor (Option Stmt)) : Prop :=
  Sound (fun n ts o n' => ∃ stmt dangling, o = some stmt ∧
    Declaration .nearest n ts stmt dangling n') (liftM declaration)

instance (rule : Rule Stmt) [hr : Grows rule] : Grows (liftM (recovering rule) : Rule _) where
  reports s := by
    have h := hr.reports s
    rw [liftM_apply]
    obtain ⟨stmt, s', hs, hrecovering⟩ | ⟨d, s', hs, hrecovering⟩ := recovering_cases rule s
    · rw [hs] at h
      rwa [hrecovering]
    · rw [hs] at h
      rw [hrecovering]
      exact h.trans (List.prefix_append _ _)
  stop s := by
    have h := hr.stop s
    rw [liftM_apply]
    obtain ⟨stmt, s', hs, hrecovering⟩ | ⟨d, s', hs, hrecovering⟩ := recovering_cases rule s
    all_goals
      rw [hs] at h
      rwa [hrecovering]
  nextId s := by
    have h := hr.nextId s
    rw [liftM_apply]
    obtain ⟨stmt, s', hs, hrecovering⟩ | ⟨d, s', hs, hrecovering⟩ := recovering_cases rule s
    all_goals
      rw [hs] at h
      rwa [hrecovering]

/-- A rule that gives up is reported, so a clean step never recovers. -/
theorem of_recovering {rule : Rule Stmt} [hr : Grows rule] {s s' : Cursor} {o : Option Stmt}
    (h : Clean (liftM (recovering rule)) s o s') : ∃ stmt, o = some stmt ∧ Clean rule s stmt s' := by
  have hs : (Except.ok (recovering rule s).1, (recovering rule s).2) =
    ((.ok o, s') : Except Diagnostic (Option Stmt) × Cursor) := h.result
  have hreports := hr.reports s
  obtain ⟨stmt, s₁, hrule, hrecovering⟩ | ⟨d, s₁, hrule, hrecovering⟩ := recovering_cases rule s
  · rw [hrecovering] at hs
    cases hs
    exact ⟨stmt, rfl, hrule, h.reports, h.ended⟩
  · rw [hrecovering] at hs
    rw [hrule] at hreports
    cases hs
    have hlen := congrArg List.length h.reports
    have hle : s.reports.length ≤ s₁.reports.length := hreports.length_le
    simp only [Cursor.report, List.length_append, List.length_singleton] at hlen
    omega

instance declarationsUntil_grows [hd : Grows (liftM declaration : Rule _)] (bound : Nat) :
    Grows (liftM (declarationsUntil closes declaration bound) : Rule _) := by
  induction bound with
  | zero => exact ⟨fun _ => List.prefix_rfl, fun _ => rfl, fun _ => Nat.le_refl _⟩
  | succ bound ih =>
    refine ⟨fun s => ?_, fun s => ?_, fun s => ?_⟩
    · change s.reports <+: (declarationsUntil closes declaration (bound + 1) s).2.reports
      rw [declarationsUntil_succ_apply]
      split
      · exact List.prefix_rfl
      · exact (hd.reports s).trans (ih.reports (declaration s).2)
    · change (declarationsUntil closes declaration (bound + 1) s).2.stop = s.stop
      rw [declarationsUntil_succ_apply]
      split
      · rfl
      · exact (ih.stop (declaration s).2).trans (hd.stop s)
    · change s.nextId ≤ (declarationsUntil closes declaration (bound + 1) s).2.nextId
      rw [declarationsUntil_succ_apply]
      split
      · exact Nat.le_refl _
      · exact Nat.le_trans (hd.nextId s) (ih.nextId (declaration s).2)

/-- A clean round of the loop is the end of it or a declaration and further clean rounds. -/
theorem of_declarationsUntil_succ [Grows (liftM declaration : Rule _)] {bound : Nat}
    {s s' : Cursor} {body : List Stmt}
    (h : Clean (liftM (declarationsUntil closes declaration (bound + 1))) s body s') :
    (s.rest.head?.all closes = true ∧ body = [] ∧ s' = s) ∨
      ∃ o others s₁, Clean (liftM declaration) s o s₁ ∧
        Clean (liftM (declarationsUntil closes declaration bound)) s₁ others s' ∧
        body = o.toList ++ others := by
  have hs : (Except.ok (declarationsUntil closes declaration (bound + 1) s).1,
      (declarationsUntil closes declaration (bound + 1) s).2) =
    ((.ok body, s') : Except Diagnostic (List Stmt) × Cursor) := h.result
  rw [declarationsUntil_succ_apply] at hs
  split at hs
  · next hclosed =>
    cases hs
    exact Or.inl ⟨hclosed, rfl, rfl⟩
  · have hround : Clean (do
        let first ← (liftM declaration : Rule (Option Stmt))
        let others ← (liftM (declarationsUntil closes declaration bound) : Rule (List Stmt))
        return first.toList ++ others) s body s' := ⟨hs, h.reports, h.ended⟩
    obtain ⟨o, s₁, h₁, h₂⟩ := hround.of_bind
    obtain ⟨others, s₂, h₃, h₄⟩ := h₂.of_bind
    obtain ⟨rfl, rfl⟩ := h₄.of_pure
    exact Or.inr ⟨o, others, s₁, h₁, h₃, rfl⟩

theorem declarationsUntil_sound [Grows (liftM declaration : Rule _)]
    (hd : SoundDeclaration declaration) (bound : Nat) :
    Sound (Declarations .nearest) (liftM (declarationsUntil closes declaration bound)) := by
  induction bound with
  | zero =>
    intro s body s' h
    have hs : (Except.ok [], s) = ((.ok body, s') : Except Diagnostic (List Stmt) × Cursor) :=
      h.result
    cases hs
    exact ⟨[], rfl, .nil⟩
  | succ bound ih =>
    intro s body s' h
    rcases of_declarationsUntil_succ h with ⟨-, rfl, rfl⟩ | ⟨o, others, s₁, h₁, h₂, rfl⟩
    · exact ⟨[], rfl, .nil⟩
    · obtain ⟨ts₁, hr₁, stmt, dangling, rfl, hstmt⟩ := hd _ _ _ h₁
      obtain ⟨ts₂, hr₂, hothers⟩ := ih _ _ _ h₂
      exact ⟨ts₁ ++ ts₂, by rw [hr₁, hr₂, List.append_assoc], .cons hstmt hothers⟩

instance [Grows (liftM declaration : Rule _)] : Grows (blockOf declaration) := by
  unfold blockOf
  infer_instance

theorem blockOf_sound [Grows (liftM declaration : Rule _)] (hd : SoundDeclaration declaration) :
    SoundBlock (blockOf declaration) := by
  intro s body s' h
  unfold blockOf at h
  obtain ⟨_, s, h₁, h₂⟩ := h.of_bind
  obtain ⟨rfl, rfl⟩ := h₁.of_get
  obtain ⟨ts, closing, body, hr, hbody, hclosing, rfl⟩ :=
    closing_sound (declarationsUntil_sound hd _) h₂
  exact ⟨ts ++ [closing], by simp [hr], ts, closing, rfl, hclosing, hbody⟩

/-- Rules nested to one depth are sound if those nested one level less are. -/
theorem upTo_sound (depth : Nat) :
    (Grows (statementUpTo depth) ∧ SoundStatement (statementUpTo depth)) ∧
      (Grows (liftM (declarationUpTo depth) : Rule _) ∧
        SoundDeclaration (declarationUpTo depth)) := by
  induction depth with
  | zero =>
    refine ⟨⟨inferInstanceAs (Grows (fail (.expected .expression))), ?_⟩,
      inferInstanceAs (Grows (liftM (recovering (fail (.expected .expression))) : Rule _)), ?_⟩
    · intro s stmt s' h
      exact absurd (show Clean (fail (.expected .expression)) s stmt s' from h) Clean.not_fail
    · intro s o s' h
      obtain ⟨stmt, -, h₁⟩ := of_recovering
        (show Clean (liftM (recovering (fail (.expected .expression)))) s o s' from h)
      exact absurd h₁ Clean.not_fail
  | succ depth ih =>
    obtain ⟨⟨hgs, hs⟩, hgd, hd⟩ := ih
    have hb := blockOf_sound hd
    refine ⟨⟨inferInstanceAs (Grows (statementWith (statementUpTo depth)
        (blockOf (declarationUpTo depth)))), statementWith_sound hs hb⟩,
      inferInstanceAs (Grows (liftM (recovering (declarationWith (statementUpTo depth)
        (blockOf (declarationUpTo depth)))) : Rule _)), ?_⟩
    intro s o s' h
    obtain ⟨stmt, rfl, h₁⟩ := of_recovering (show Clean (liftM (recovering
      (declarationWith (statementUpTo depth) (blockOf (declarationUpTo depth))))) s o s' from h)
    obtain ⟨ts, hr, dangling, hstmt⟩ := declarationWith_sound hs hb _ _ _ h₁
    exact ⟨ts, hr, stmt, dangling, rfl, hstmt⟩

end Recovery

instance : Grows (liftM declaration : Rule _) :=
  Grows.of_apply fun s => ⟨_, declaration_apply s, (upTo_sound _).2.1⟩

instance program_grows : Grows (liftM program : Rule _) :=
  Grows.of_apply fun s =>
    ⟨liftM (declarationsUntil (fun _ => false) declaration s.rest.length), rfl, inferInstance⟩

theorem declaration_sound : SoundDeclaration declaration := by
  intro s o s' h
  exact (upTo_sound (s.rest.length + 1)).2.2 s o s' (h.congr (declaration_apply s))


end TreeWalk.Rule

namespace TreeWalk.Grammar

theorem ExpressionStatement.ne_nil {n n' : Nat} {ts : List Token} {s : Stmt}
    (h : ExpressionStatement n ts s n') : ts ≠ [] := by
  cases h with
  | intro => simp

theorem VariableDeclaration.ne_nil {n n' : Nat} {ts : List Token} {s : Stmt}
    (h : VariableDeclaration n ts s n') : ts ≠ [] := by
  cases h <;> simp

theorem Statement.ne_nil {attachment : Attachment} {n n' : Nat} {ts : List Token} {s : Stmt}
    {dangling : Bool} (h : Statement attachment n ts s dangling n') : ts ≠ [] := by
  cases h with
  | expression h => exact h.ne_nil
  | _ => simp

theorem Declaration.ne_nil {attachment : Attachment} {n n' : Nat} {ts : List Token} {s : Stmt}
    {dangling : Bool} (h : Declaration attachment n ts s dangling n') : ts ≠ [] := by
  cases h with
  | function => simp
  | binding h => exact h.ne_nil
  | statement h => exact h.ne_nil

end TreeWalk.Grammar

namespace TreeWalk.Rule
open Grammar

/-- Every declaration takes a token, so the bound on their number is never met too early. -/
theorem declarationsUntil_all {closes : Token → Bool} {bound : Nat} {s s' : Cursor}
    {body : List Stmt} (hb : s.rest.length ≤ bound)
    (h : Clean (liftM (declarationsUntil closes declaration bound)) s body s') :
    s'.rest.head?.all closes = true := by
  induction bound generalizing s body with
  | zero =>
    have hs : (Except.ok [], s) = ((.ok body, s') : Except Diagnostic (List Stmt) × Cursor) :=
      h.result
    cases hs
    simp [List.length_eq_zero_iff.mp (Nat.le_zero.mp hb)]
  | succ bound ih =>
    rcases of_declarationsUntil_succ h with ⟨hclosed, rfl, rfl⟩ | ⟨o, others, s₁, h₁, h₂, rfl⟩
    · exact hclosed
    · obtain ⟨ts, hr, stmt, dangling, rfl, hstmt⟩ := declaration_sound _ _ _ h₁
      refine ih ?_ h₂
      have hpos : 0 < ts.length := List.length_pos_iff.mpr hstmt.ne_nil
      have hlen := congrArg List.length hr
      simp only [List.length_append] at hlen
      omega

/-- A program without reports takes all tokens, and they derive its statements. -/
theorem program_sound {s s' : Cursor} {body : List Stmt}
    (h : Clean (liftM program) s body s') :
    s'.rest = [] ∧ Declarations .nearest s.nextId s.rest body s'.nextId := by
  have hs : (Except.ok (program s).1, (program s).2) =
    ((.ok body, s') : Except Diagnostic (List Stmt) × Cursor) := h.result
  have h' : Clean (liftM (declarationsUntil (fun _ => false) declaration s.rest.length))
    s body s' := ⟨hs, h.reports, h.ended⟩
  have hrest : s'.rest = [] := by
    have hall := declarationsUntil_all (Nat.le_refl _) h'
    cases hr : s'.rest with
    | nil => rfl
    | cons t ts =>
      rw [hr] at hall
      simp at hall
  obtain ⟨ts, hr, hbody⟩ := declarationsUntil_sound declaration_sound _ _ _ _ h'
  rw [hrest, List.append_nil] at hr
  rw [hr]
  exact ⟨hrest, hbody⟩

end TreeWalk.Rule
