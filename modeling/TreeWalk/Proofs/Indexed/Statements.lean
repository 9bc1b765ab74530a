import TreeWalk.Proofs.Indexed.Expressions

/-! Statements and declarations by index. A declaration that fails still passes over a token. -/

namespace TreeWalk

theorem Cursor.resumption_last (t : Token) : resumption [t] = [] := by
  rw [resumption]
  exact ite_self _

namespace Descent

variable {k fuel : Nat}

section Statements

variable {statement : Descent Stmt} {statement' : Rule Stmt} {block : Descent (List Stmt)}
  {block' : Rule (List Stmt)}

theorem discard_follows {kind : Kind} {what : Expectation} {p : Token → Bool}
    (hp : ∀ t, p t = t.kind.agrees kind) :
    Follows k false (discard (consume kind what)) (discard (Rule.expect p what)) :=
  (Follows.consume hp).discard.weaken

theorem expressionStatement_follows (hfuel : k < fuel) :
    Follows k true (expressionStatement fuel) Rule.expressionStatement :=
  (expression_follows hfuel).bind fun _ => (discard_follows fun _ => rfl).bind fun _ => .pure _

theorem printStatement_follows (hfuel : k < fuel) :
    Follows k true (printStatement fuel) Rule.printStatement :=
  (expression_follows hfuel).bind fun _ => (discard_follows fun _ => rfl).bind fun _ => .pure _

theorem optionalExpression_follows (hfuel : k < fuel) (closing : Punctuator) :
    Follows k false (optionalExpression fuel (.punctuator closing))
      (Rule.optionalExpression closing) := by
  refine (Follows.check fun _ => rfl).bind fun yes => .ite (.pure none) ?_
  exact (expression_follows hfuel).weaken.bind fun e => .pure (some e)

theorem returnStatement_follows (hfuel : k < fuel) (keyword : Token) :
    FollowsPast keyword k false (returnStatement fuel) (Rule.returnStatement keyword) := by
  refine .previous ((optionalExpression_follows hfuel _).bind fun value => ?_)
  exact (discard_follows fun _ => rfl).bind fun _ => .pure _

theorem variableDeclaration_follows (hfuel : k < fuel) :
    Follows k true (variableDeclaration fuel) Rule.variableDeclaration := by
  have hclose (name : Token) (initializer : Option Expr) : Follows k false
      (discard (consume (.punctuator .semicolon) .semicolonAfterDeclaration) >>= fun _ =>
        pure (Stmt.declare name initializer))
      (discard (Rule.expect (·.isPunctuator .semicolon) .semicolonAfterDeclaration) >>= fun _ =>
        pure (Stmt.declare name initializer)) :=
    (discard_follows fun _ => rfl).bind fun _ => .pure _
  refine (Follows.consume fun _ => rfl).bind fun name => .choice asks_one ?_ ?_
  · exact (expression_follows hfuel).weaken.map.bind (hclose name)
  · exact (Follows.pure none).bind (hclose name)

theorem whileStatement_follows (hfuel : k < fuel) (hs : Follows k true statement statement') :
    Follows k false (whileStatement fuel statement) (Rule.whileStatement statement') := by
  refine (discard_follows fun _ => rfl).bind fun _ => ?_
  refine (expression_follows hfuel).weaken.bind fun condition => ?_
  refine (discard_follows fun _ => rfl).bind fun _ => ?_
  exact hs.weaken.bind fun body => .pure _

theorem ifStatement_follows (hfuel : k < fuel) (hs : Follows k true statement statement') :
    Follows k false (ifStatement fuel statement) (Rule.ifStatement statement') := by
  refine (discard_follows fun _ => rfl).bind fun _ => ?_
  refine (expression_follows hfuel).weaken.bind fun condition => ?_
  refine (discard_follows fun _ => rfl).bind fun _ => ?_
  refine hs.weaken.bind fun thenBranch => .choice asks_one ?_ (.pure _)
  exact hs.weaken.bind fun elseBranch => .pure _

theorem forInitializer_follows (hfuel : k < fuel) :
    Follows k false (forInitializer fuel) Rule.forInitializer := by
  refine .choice asks_one (.pure none) (.choice asks_one ?_ ?_)
  · exact (variableDeclaration_follows hfuel).weaken.bind fun s => .pure (some s)
  · exact (expressionStatement_follows hfuel).weaken.bind fun s => .pure (some s)

theorem forStatement_follows (hfuel : k < fuel) (hs : Follows k true statement statement') :
    Follows k false (forStatement fuel statement) (Rule.forStatement statement') := by
  refine (discard_follows fun _ => rfl).bind fun _ => ?_
  refine (forInitializer_follows hfuel).bind fun initializer => ?_
  refine (optionalExpression_follows hfuel _).bind fun condition => ?_
  refine (discard_follows fun _ => rfl).bind fun _ => ?_
  refine (optionalExpression_follows hfuel _).bind fun increment => ?_
  refine (discard_follows fun _ => rfl).bind fun _ => ?_
  exact hs.weaken.bind fun body => .pure _

theorem statementWith_follows (hfuel : k + 1 < fuel) (hs : Follows k true statement statement')
    (hb : Follows k false block block') :
    Follows (k + 1) true (statementWith fuel statement block)
      (Rule.statementWith statement' block') := by
  have hless : k < fuel := Nat.lt_of_succ_lt hfuel
  refine .takes_accepts asks_one (forStatement_follows hless hs) ?_
  refine .takes_accepts asks_one (ifStatement_follows hless hs) ?_
  refine .takes_accepts asks_one (printStatement_follows hless).weaken ?_
  refine .takes_accept? asks_one (returnStatement_follows hless) ?_
  refine .takes_accepts asks_one (whileStatement_follows hless hs) ?_
  refine .takes_accepts asks_one ?_ (expressionStatement_follows hfuel)
  exact hb.bind fun body => .pure _

theorem parameters_follows (hfuel : k ≤ fuel) :
    Follows k false (parameters fuel) Rule.parameters :=
  items_follows (Follows.consume fun _ => rfl) hfuel fun params =>
    (discard_follows fun _ => rfl).bind fun _ => .pure params

theorem functionDeclaration_follows (hfuel : k ≤ fuel) (hb : Follows k false block block') :
    Follows k false (functionDeclaration fuel block) (Rule.functionDeclaration block') := by
  refine (Follows.consume fun _ => rfl).weaken.bind fun name => ?_
  refine (discard_follows fun _ => rfl).bind fun _ => ?_
  refine (parameters_follows hfuel).bind fun params => ?_
  refine (discard_follows fun _ => rfl).bind fun _ => ?_
  exact hb.bind fun body => .pure _

theorem declarationWith_follows (hfuel : k + 1 < fuel) (hs : Follows k true statement statement')
    (hb : Follows k false block block') :
    Follows (k + 1) true (declarationWith fuel statement block)
      (Rule.declarationWith statement' block') := by
  have hless : k < fuel := Nat.lt_of_succ_lt hfuel
  refine .takes_accepts asks_one (functionDeclaration_follows (Nat.le_of_lt hless) hb) ?_
  refine .takes_accepts asks_one (variableDeclaration_follows hless).weaken ?_
  exact statementWith_follows hfuel hs hb

end Statements

section Recovery

variable {tokens : List Token} {last : Nat} {reader : Reader} {s : Cursor}

/-- Goes on behind a faulty statement of which the token `t` has been passed over. -/
def resumeAfter (t : Token) : Rule Unit :=
  modify fun s => { s with rest := Cursor.resumption (t :: s.rest) }

/-- By induction on the fuel. The token looked back at is the one that the resumption starts
with. -/
theorem synchronizeFrom_followsAt (hfuel : s.rest.length < fuel) (hat : reader.At tokens last s)
    {t : Token} (ht : tokens[reader.current - 1]? = some t) :
    FollowsAt tokens last false (synchronizeFrom fuel) (resumeAfter t) reader s := by
  induction fuel generalizing reader s t with
  | zero => cases hfuel
  | succ fuel ih =>
    have hstays (h : Cursor.resumption (t :: s.rest) = s.rest) :
        resumeAfter t s = (.ok (), s) := by
      change (Except.ok (), { s with rest := Cursor.resumption (t :: s.rest) }) = _
      rw [h]
    refine (Looks.isAtEnd hat).bind_follows fun reader₁ hat₁ hcurrent => ?_
    cases hrest : s.rest with
    | nil =>
      refine .of_looks (.pure hat₁) (hstays ?_)
      rw [hrest, Cursor.resumption_last]
    | cons u us =>
      have hresume : Cursor.resumption (t :: s.rest) =
          if t.isPunctuator .semicolon || u.startsStatement then s.rest
          else Cursor.resumption (u :: us) := by
        rw [hrest]
        rfl
      have hhead : s.head = u := Cursor.head_eq (by rw [hrest]; rfl)
      refine (Looks.previous hat₁ (hcurrent ▸ ht)).bind_follows fun reader₂ hat₂ _ => ?_
      cases hsemicolon : t.isPunctuator .semicolon with
      | true => exact .of_looks (.pure hat₂) (hstays (by rw [hresume, hsemicolon]; rfl))
      | false =>
        refine (hhead ▸ Looks.peek hat₂).bind_follows fun reader₃ hat₃ _ => ?_
        cases hstarts : u.startsStatement with
        | true =>
          exact .of_looks (.pure hat₃) (hstays (by rw [hresume, hsemicolon, hstarts]; rfl))
        | false =>
          have hr : resumeAfter t s = resumeAfter u { s with rest := us } := by
            change (Except.ok (), { s with rest := Cursor.resumption (t :: s.rest) }) = _
            rw [hresume, hsemicolon, hstarts]
            rfl
          refine .advance_then hat₃ hrest hr fun reader₄ hat₄ hu => ?_
          refine ih (Nat.lt_of_succ_lt_succ ?_) hat₄ hu
          rw [hrest] at hfuel
          exact hfuel

/-- At the end nothing is passed over; before the first token the look back is at that token. -/
theorem discard_advance_last (hat : reader.At tokens last s) (hrest : s.rest = []) :
    Looks tokens last (discard advance) () reader s ∧
      ∃ t, tokens[reader.current - 1]? = some t := by
  obtain ⟨hlt, -⟩ := List.getElem?_eq_some_iff.mp hat.head
  obtain ⟨t, ht⟩ : ∃ t, tokens[reader.current - 1]? = some t :=
    ⟨_, List.getElem?_eq_getElem (Nat.lt_of_le_of_lt (Nat.sub_le ..) hlt)⟩
  obtain ⟨reader₁, hrun, hat₁, hcurrent⟩ := Looks.isAtEnd hat
  obtain ⟨reader₂, hrun', hat₂, hcurrent'⟩ := Looks.previous hat₁ (hcurrent ▸ ht)
  rw [hrest] at hrun
  have hadvance : advance tokens reader = some (.ok t, reader₂) := (bind_of_ok hrun).trans hrun'
  exact ⟨⟨reader₂, discard_of_ok hadvance, hat₂, hcurrent'.trans hcurrent⟩, t, ht⟩

/-- Unless no token is left, one is passed over. -/
theorem synchronize_followsAt (hfuel : s.rest.length < fuel) (hat : reader.At tokens last s) :
    FollowsAt tokens last (!s.rest.isEmpty) (synchronize fuel)
      (modify fun s => { s with rest := Cursor.resumption s.rest } : Rule Unit) reader s := by
  cases hrest : s.rest with
  | nil =>
    obtain ⟨hlook, t, ht⟩ := discard_advance_last hat hrest
    refine hlook.bind_follows fun reader₁ hat₁ hcurrent => ?_
    refine (synchronizeFrom_followsAt hfuel hat₁ (hcurrent ▸ ht)).congr ?_
    change (Except.ok (), { s with rest := Cursor.resumption s.rest }) =
      (Except.ok (), { s with rest := Cursor.resumption (t :: s.rest) })
    rw [hrest, Cursor.resumption_last]
    rfl
  | cons t ts =>
    refine .advance_then hat hrest ?_ fun reader₁ hat₁ ht =>
      synchronizeFrom_followsAt (Nat.lt_of_succ_lt ?_) hat₁ ht
    · change (Except.ok (), { s with rest := Cursor.resumption s.rest }) = _
      rw [hrest]
      rfl
    · rw [hrest] at hfuel
      exact hfuel

theorem recovering_apply (rule : Descent Stmt) : recovering fuel rule tokens reader =
    ((some <$> rule) tokens reader).bind fun outcome =>
      match outcome with
      | (.ok stmt, reader') => some (.ok stmt, reader')
      | (.error d, reader') =>
        (report d >>= fun _ => synchronize fuel >>= fun _ => pure none) tokens reader' := by
  change Option.bind _ _ = _
  refine congrArg (Option.bind _) (funext fun outcome => ?_)
  obtain ⟨result, reader'⟩ := outcome
  cases result <;> rfl

theorem recovering_of_ok {rule : Descent Stmt} {stmt : Stmt} {reader' : Reader}
    (h : rule tokens reader = some (.ok stmt, reader')) :
    recovering fuel rule tokens reader = some (.ok (some stmt), reader') := by
  rw [recovering_apply, map_of_ok h]
  rfl

theorem recovering_of_error {rule : Descent Stmt} {d : Diagnostic} {reader' : Reader}
    (h : rule tokens reader = some (.error d, reader')) :
    recovering fuel rule tokens reader =
      (report d >>= fun _ => synchronize fuel >>= fun _ => pure none) tokens reader' := by
  have hrule : (some <$> rule) tokens reader = some (.error d, reader') := by
    rw [map_eq_pure_bind, bind_of_error h]
  rw [recovering_apply, hrule]
  rfl

/-- Where a token is left, a declaration passes over one: if the rule gives up without having taken
any, the recovery drops one, and if no token is left for that, the rule has taken some. -/
theorem recovering_followsAt {rule : Descent Stmt} {rule' : Rule Stmt}
    (h : FollowsAt tokens last true rule rule' reader s) (hat : reader.At tokens last s)
    (hleft : s.rest ≠ []) (hfuel : s.rest.length < fuel) :
    FollowsAt tokens last true (recovering fuel rule) (liftM (Rule.recovering rule')) reader s := by
  obtain ⟨reader₁, hrun, hat₁, hle, hlt⟩ := h
  rw [FollowsAt, Rule.liftM_apply]
  obtain ⟨stmt, s₁, hr, hrecovering⟩ | ⟨d, s₁, hr, hrecovering⟩ := Rule.recovering_cases rule' s
  · rw [hr] at hrun hat₁ hlt
    rw [hrecovering]
    exact ⟨reader₁, recovering_of_ok hrun, hat₁, hle, fun _ _ _ => hlt rfl stmt rfl⟩
  · rw [hr] at hrun hat₁ hlt
    rw [hrecovering]
    have hat₂ : Reader.At tokens last { reader₁ with reports := reader₁.reports ++ [d] }
        (s₁.report d) := { hat₁ with reports := congrArg (· ++ [d]) hat₁.reports }
    have hlength : s₁.rest.length ≤ s.rest.length := hat.length_le hat₁ hle
    have hfewer : (s₁.report d).rest.length < fuel := Nat.lt_of_le_of_lt hlength hfuel
    obtain ⟨reader₃, hrun₃, hat₃, hle₃, hlt₃⟩ := synchronize_followsAt hfewer hat₂
    have hreport : report d tokens reader₁ =
        some (.ok (), { reader₁ with reports := reader₁.reports ++ [d] }) := rfl
    refine ⟨reader₃, ?_, hat₃, Nat.le_trans hle hle₃, fun _ _ _ => ?_⟩
    · rw [recovering_of_error hrun, bind_of_ok hreport, bind_of_ok hrun₃]
      rfl
    · cases hrest : s₁.rest with
      | nil =>
        have hlast : reader₁.current + s₁.rest.length = last := hat₁.ends
        have hfirst := hat.ends
        have hpositive : 0 < s.rest.length := List.length_pos_iff.mpr hleft
        rw [hrest, List.length_nil] at hlast
        have hpast : reader.current < reader₁.current := by omega
        exact Nat.lt_of_lt_of_le hpast hle₃
      | cons t ts =>
        refine Nat.lt_of_le_of_lt hle (hlt₃ ?_ () rfl)
        rw [Cursor.report, hrest]
        rfl

end Recovery

section Declarations

variable {declaration : Descent (Option Stmt)} {declaration' : StateM Cursor (Option Stmt)}

/-- Declarations that are only called where a token is left, and then pass over one. -/
def Declares (k : Nat) (declaration : Descent (Option Stmt))
    (declaration' : StateM Cursor (Option Stmt)) : Prop :=
  ∀ tokens last reader s, s.rest.length < k → reader.At tokens last s → s.rest ≠ [] →
    FollowsAt tokens last true declaration (liftM declaration') reader s

theorem Declares.mono {k' : Nat} (h : Declares k declaration declaration') (hle : k' ≤ k) :
    Declares k' declaration declaration' :=
  fun tokens last reader s hlt => h tokens last reader s (Nat.lt_of_lt_of_le hlt hle)

theorem declarationsUntil_closed {tokens : List Token} {last : Nat} {reader : Reader} {s : Cursor}
    {bound : Nat} {closes : Token → Bool} {statements : List Stmt} {next : Descent (List Stmt)}
    (hat : reader.At tokens last s)
    (hr : Rule.declarationsUntil closes declaration' bound s = ([], s)) :
    FollowsAt tokens last false (if true = true then pure statements else next)
      (liftM (Rule.declarationsUntil closes declaration' bound) >>= fun others =>
        pure (statements ++ others)) reader s := by
  refine .of_looks (.pure hat) ?_
  rw [Rule.bind_apply, Rule.liftM_apply, hr]
  change (Except.ok (statements ++ []), s) = _
  rw [List.append_nil]

/-- A round of the rule, with the statements of the rounds before. -/
theorem declarationsUntil_open {s : Cursor} {closes : Token → Bool} {bound : Nat}
    (hopen : s.rest.head?.all closes = false) (statements : List Stmt) :
    (liftM (Rule.declarationsUntil closes declaration' (bound + 1)) >>= fun others =>
        pure (statements ++ others) : Rule (List Stmt)) s =
      (liftM declaration' >>= fun first =>
        liftM (Rule.declarationsUntil closes declaration' bound) >>= fun others =>
          pure (statements ++ first.toList ++ others) : Rule (List Stmt)) s := by
  have hgoes : Rule.declarationsUntil closes declaration' (bound + 1) s =
      ((declaration' s).1.toList ++
        (Rule.declarationsUntil closes declaration' bound (declaration' s).2).1,
          (Rule.declarationsUntil closes declaration' bound (declaration' s).2).2) := by
    rw [Rule.declarationsUntil_succ_apply, hopen]
    rfl
  rw [Rule.bind_apply, Rule.liftM_apply, hgoes, Rule.bind_apply, Rule.liftM_apply]
  change (Except.ok (statements ++ (_ ++ _)), _) = (Except.ok (statements ++ _ ++ _), _)
  rw [List.append_assoc]

/-- By induction on the bound of the rule, of which every declaration takes something. -/
theorem declarationsUntil_follows {closes : Token → Bool} {closing : List Kind}
    (hp : Asks closes closing) (hd : Declares k declaration declaration') (bound : Nat)
    (hbound : bound < k) (hfuel : bound < fuel) (statements : List Stmt) :
    Follows (bound + 1) false (declarationsUntil closing declaration fuel statements)
      (liftM (Rule.declarationsUntil closes declaration' bound) >>= fun others =>
        pure (statements ++ others)) := by
  have hsame : (fun t => closing.any fun k => t.kind.agrees k) = closes :=
    funext fun t => (hp t).symm
  induction bound generalizing fuel statements with
  | zero =>
    cases fuel with
    | zero => cases hfuel
    | succ fuel =>
      intro tokens last reader s hlt hat
      have hrest : s.rest = [] := List.length_eq_zero_iff.mp (Nat.lt_one_iff.mp hlt)
      refine (Looks.closes hat closing).bind_follows fun reader' hat' _ => ?_
      rw [hrest]
      exact declarationsUntil_closed hat' rfl
  | succ bound ih =>
    cases fuel with
    | zero => cases hfuel
    | succ fuel =>
      intro tokens last reader s hlt hat
      refine (Looks.closes hat closing).bind_follows fun reader' hat' _ => ?_
      rw [hsame]
      cases hclosed : s.rest.head?.all closes with
      | true =>
        refine declarationsUntil_closed hat' ?_
        rw [Rule.declarationsUntil_succ_apply, hclosed]
        rfl
      | false =>
        have hleft : s.rest ≠ [] := by
          intro hrest
          rw [hrest] at hclosed
          cases hclosed
        have hfirst := hd tokens last reader' s (Nat.lt_of_lt_of_le hlt hbound) hat' hleft
        refine (FollowsAt.congr ?_ (declarationsUntil_open hclosed statements) :
          FollowsAt tokens last false _ _ _ _)
        refine (hfirst.bind fun first reader₁ s₁ _ hpast hat₁ => ?_).weaken
        have hfewer : s₁.rest.length < bound + 1 := by
          have hends := hat'.ends
          have hends₁ := hat₁.ends
          have hlt₁ := hpast rfl
          omega
        exact ih (Nat.lt_of_succ_lt hbound) (Nat.lt_of_succ_lt_succ hfuel)
          (statements ++ first.toList) tokens last reader₁ s₁ hfewer hat₁

theorem blockOf_follows (hd : Declares k declaration declaration') (hfuel : k ≤ fuel) :
    Follows k false (blockOf fuel declaration) (Rule.blockOf declaration') := by
  have hinside (m : Nat) (hm : m < k) : Follows (m + 1) false (blockOf fuel declaration)
      (liftM (Rule.declarationsUntil (·.isPunctuator .rightBrace) declaration' m) >>= fun body =>
        discard (Rule.expect (·.isPunctuator .rightBrace) .braceAfterBlock) >>= fun _ =>
          pure body) := by
    have hbrace : Asks (·.isPunctuator .rightBrace) [.punctuator .rightBrace] := asks_one
    have hbody := declarationsUntil_follows hbrace hd m hm (Nat.lt_of_lt_of_le hm hfuel) []
    simp only [List.nil_append, bind_pure] at hbody
    exact hbody.bind fun body => (discard_follows fun _ => rfl).bind fun _ => .pure body
  exact .length_bind hinside

/-- By induction on the tokens left. -/
theorem nested_follows {depth : Nat} (hfuel : k + 1 < fuel) (hdepth : k ≤ depth) :
    Follows k true (statement fuel) (Rule.statementUpTo depth) ∧
      Declares k (Descent.declaration fuel) (Rule.declarationUpTo depth) := by
  induction k generalizing fuel depth with
  | zero => exact ⟨.no_tokens, fun _ _ _ _ hlt => absurd hlt (Nat.not_lt_zero _)⟩
  | succ k ih =>
    cases fuel with
    | zero => cases hfuel
    | succ fuel =>
      cases depth with
      | zero => cases hdepth
      | succ depth =>
        have hless : k + 1 < fuel := Nat.lt_of_succ_lt_succ hfuel
        obtain ⟨hs, hd⟩ := ih hless (Nat.le_of_succ_le_succ hdepth)
        have hb := blockOf_follows hd (Nat.le_of_lt (Nat.lt_of_succ_lt hless))
        refine ⟨statementWith_follows hless hs hb, fun tokens last reader s hlt hat hleft => ?_⟩
        have hrule := declarationWith_follows hless hs hb tokens last reader s hlt hat
        exact recovering_followsAt hrule hat hleft (Nat.lt_trans hlt hless)

theorem declaration_declares (hfuel : k + 1 < fuel) :
    Declares k (Descent.declaration fuel) Rule.declaration := by
  intro tokens last reader s hlt hat hleft
  have hnested := (nested_follows (Nat.lt_of_le_of_lt (Nat.succ_le_succ hlt) hfuel)
    (Nat.le_refl (s.rest.length + 1))).2
  exact (hnested tokens last reader s (Nat.lt_succ_self _) hat hleft).congr
    (Rule.declaration_apply s)

theorem program_followsAt {tokens : List Token} {last : Nat} {reader : Reader} {s : Cursor}
    (hat : reader.At tokens last s) (hfuel : s.rest.length + 2 < fuel) :
    FollowsAt tokens last false (program fuel) (liftM Rule.program) reader s := by
  have hnone : Asks (fun _ => false) [] := fun _ => rfl
  have hall := declarationsUntil_follows hnone (declaration_declares hfuel) s.rest.length
    (Nat.lt_succ_self _) (Nat.lt_of_succ_lt (Nat.lt_of_succ_lt hfuel)) []
  simp only [List.nil_append, bind_pure] at hall
  refine (hall tokens last reader s (Nat.lt_succ_self _) hat).congr ?_
  rw [Rule.liftM_apply, Rule.liftM_apply, Rule.program]

end Declarations

end Descent

end TreeWalk
