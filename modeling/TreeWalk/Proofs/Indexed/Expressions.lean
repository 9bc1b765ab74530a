import TreeWalk.Proofs.Grammar.Confinement
import TreeWalk.Proofs.Indexed.Following

/-! Expressions by index. Fuel for as many rounds and as deep a nesting as there are tokens left is
enough. -/

namespace TreeWalk

namespace Rule

/-- A sign before an expression. -/
def isSign (t : Token) : Bool :=
  t.isPunctuator .bang || t.isPunctuator .minus

theorem unary_apply (expression : Rule Expr) (s : Cursor) : unary expression s =
    (call expression >>= fun operand =>
      pure ((s.rest.takeWhile isSign).foldr .unary operand) : Rule Expr)
        { s with rest := s.rest.dropWhile isSign } :=
  rfl

/-- Signs are taken one by one. -/
theorem unary_eq (expression : Rule Expr) : unary expression =
    accept? isSign >>= fun o => match o with
      | some operator => unary expression >>= fun right => pure (.unary operator right)
      | none => call expression := by
  funext s
  have hcall (h : s.rest.takeWhile isSign = []) : unary expression s = call expression s := by
    have hdrop : s.rest.dropWhile isSign = s.rest := by
      have hboth : s.rest.takeWhile isSign ++ s.rest.dropWhile isSign = s.rest :=
        List.takeWhile_append_dropWhile
      rwa [h] at hboth
    rw [unary_apply, h, hdrop]
    exact congrFun (bind_pure (call expression)) s
  rw [bind_apply, accept?_apply]
  cases hrest : s.rest with
  | nil => exact hcall (by rw [hrest]; rfl)
  | cons t ts =>
    dsimp only
    cases ht : isSign t with
    | false => exact hcall (by rw [hrest, List.takeWhile_cons_of_neg (by simp [ht])])
    | true =>
      change _ = (unary expression >>= fun right => pure (Expr.unary t right) : Rule Expr)
        { s with rest := ts }
      rw [unary_apply, hrest, List.takeWhile_cons_of_pos ht, List.dropWhile_cons_of_pos ht,
        bind_apply, bind_apply, unary_apply, bind_apply]
      cases call expression { s with rest := ts.dropWhile isSign } with
      | mk result s' => cases result <;> rfl

/-- A primary that is no constant, by its first token. -/
def primaryByToken (expression : Rule Expr) : Rule Expr := do
  match ← accept? Token.isIdentifier with
  | some name => return .var (← freshId) name
  | none =>
    if ← accepts (·.isPunctuator .leftParen) then
      let inner ← expression
      discard (expect (·.isPunctuator .rightParen) .parenAfterExpression)
      return .grouping inner
    else fail (.expected .expression)

theorem primary_eq_byToken {expression : Rule Expr} {s : Cursor} (hstop : s.stop.isEnd = true)
    (h : s.head.constant? = none) : primary expression s = primaryByToken expression s := by
  rw [primary_of_no_constant h, primaryByToken, bind_apply, accept?_apply]
  cases hrest : s.rest with
  | nil =>
    have hhead : s.head = s.stop := by rw [Cursor.head, hrest]; rfl
    have hkind : s.head.kind = .eof := hhead ▸ Token.isEnd_iff.mp hstop
    have hname : ¬ s.head.isIdentifier = true := by
      rw [Token.isIdentifier_iff, hkind]
      simp
    have hparen : ¬ s.head.isPunctuator .leftParen = true := by
      rw [Token.isPunctuator_iff, hkind]
      simp
    rw [if_neg hname, if_neg hparen]
    dsimp only
    rw [accepts, bind_assoc, bind_apply, accept?_apply, hrest]
    rfl
  | cons t ts =>
    have hhead : s.head = t := by rw [Cursor.head, hrest]; rfl
    have hskip {r : Rule Expr} : (skip >>= fun _ => r) s = r { s with rest := ts } := by
      change r { s with rest := s.rest.tail } = _
      rw [hrest]
      rfl
    rw [hhead]
    dsimp only
    cases t.isIdentifier with
    | true => exact hskip
    | false =>
      change _ = (accepts (·.isPunctuator .leftParen) >>= _) s
      rw [accepts, bind_assoc, bind_apply, accept?_apply, hrest]
      dsimp only
      cases t.isPunctuator .leftParen with
      | true => exact hskip
      | false => rfl

end Rule

namespace Descent

variable {k fuel : Nat}

section Lists

variable {α β : Type} {tooMany : SyntacticCause} {item : Descent α} {item' : Rule α}

/-- By induction on the bound of the rule. What is taken between two items is a comma. -/
theorem moreItems_follows (hitem : Follows k true item item') (bound : Nat)
    (hbound : bound < k) (hfuel : bound ≤ fuel) (as : List α) :
    Follows (bound + 1) false (do
        if ← takes [.punctuator .comma] then itemsFrom tooMany item fuel as else return as)
      (Rule.moreItems tooMany item' bound as) := by
  induction bound generalizing fuel as with
  | zero => exact .takes_last (.pure as)
  | succ bound ih =>
    cases fuel with
    | zero => cases hfuel
    | succ fuel =>
      have hround : Follows (bound + 1) false (do
          let a ← item
          if ← takes [.punctuator .comma] then itemsFrom tooMany item fuel (as ++ [a])
          else return as ++ [a])
          (item' >>= fun a => Rule.moreItems tooMany item' bound (as ++ [a])) :=
        (hitem.mono (Nat.le_of_lt hbound)).weaken.bind fun a =>
          ih (Nat.lt_of_succ_lt hbound) (Nat.le_of_succ_le_succ hfuel) (as ++ [a])
      refine .takes_accepts asks_one ?_ (.pure as)
      exact .ite ((Follows.complain tooMany).bind fun _ => hround) hround

theorem commaSeparated_follows (hitem : Follows k true item item') (hfuel : k ≤ fuel) :
    Follows k false (itemsFrom tooMany item fuel []) (Rule.commaSeparated tooMany item') := by
  cases k with
  | zero => exact .no_tokens
  | succ k =>
    cases fuel with
    | zero => cases hfuel
    | succ fuel =>
      have hfew : ¬ Rule.maxArity ≤ ([] : List α).length := Nat.not_succ_le_zero 254
      rw [itemsFrom, if_neg hfew]
      refine hitem.weaken.bind fun a => ?_
      have hmore (m : Nat) (hm : m < k + 1) : Follows (m + 1) false _
          (Rule.moreItems tooMany item' m [a]) :=
        moreItems_follows hitem m hm (Nat.le_of_lt_succ (Nat.lt_of_lt_of_le hm hfuel)) [a]
      exact .length_bind hmore

/-- The list is empty if the parenthesis that closes it comes right away. -/
theorem items_follows (hitem : Follows k true item item') (hfuel : k ≤ fuel)
    {f : List α → Descent β} {g : List α → Rule β} (hf : ∀ as, Follows k false (f as) (g as)) :
    Follows k false (items tooMany item fuel >>= f)
      (Rule.sees (·.isPunctuator .rightParen) >>= fun yes =>
        if yes = true then pure [] >>= g else Rule.commaSeparated tooMany item' >>= g) := by
  unfold items
  rw [bind_assoc]
  refine (Follows.check fun _ => rfl).bind fun yes => ?_
  cases yes with
  | true => exact (Follows.pure []).bind hf
  | false => exact (commaSeparated_follows hitem hfuel).bind hf

end Lists

section Expressions

variable {operand expression : Descent Expr} {operand' expression' : Rule Expr}

theorem joinedFrom_follows {j : Joint} {isOperator : Token → Bool}
    (hp : Asks isOperator j.operators) (ho : Follows k true operand operand') (bound : Nat)
    (hbound : bound < k) (hfuel : bound < fuel) (left : Expr) :
    Follows (bound + 1) false (joinedFrom j operand fuel left)
      (Rule.leftAssocFrom j.join isOperator operand' bound left) := by
  induction bound generalizing fuel left with
  | zero =>
    cases fuel with
    | zero => cases hfuel
    | succ fuel => exact .takes_last (.pure left)
  | succ bound ih =>
    cases fuel with
    | zero => cases hfuel
    | succ fuel =>
      simp only [joinedFrom, Rule.leftAssocFrom]
      refine .takes_accept? hp (fun operator => .previous ?_) (.pure left)
      refine (ho.mono (Nat.le_of_lt hbound)).weaken.bind fun right => ?_
      exact ih (Nat.lt_of_succ_lt hbound) (Nat.lt_of_succ_lt_succ hfuel) _

theorem joined_follows {j : Joint} {isOperator : Token → Bool} (hp : Asks isOperator j.operators)
    (hfuel : k ≤ fuel) (ho : Follows k true operand operand') :
    Follows k true (joined fuel j operand)
      (Rule.leftAssoc j.join isOperator operand') :=
  ho.bind fun left => .length_bind fun m hm =>
    joinedFrom_follows hp ho m hm (Nat.lt_of_lt_of_le hm hfuel) left

section Primary

variable {tokens : List Token} {last : Nat} {reader : Reader} {s : Cursor} {t : Token}
  {ts : List Token}

theorem not_asked {k : Kind} (h : ∀ t ∈ s.rest.head?, t.kind.agrees k = false) :
    (s.rest.head?.any fun t => [k].any fun k => t.kind.agrees k) = false := by
  cases hhead : s.rest.head? with
  | none => rfl
  | some t => exact (Bool.or_false _).trans (h t hhead)

/-- Each kind of constant is asked for in turn. -/
theorem primary_constant (h : reader.At tokens last s) (hrest : s.rest = t :: ts) {value : Literal}
    (hvalue : t.constant? = some value) :
    FollowsAt tokens last true (primary expression) (Rule.primary expression') reader s := by
  have hhead : s.head = t := by rw [Cursor.head, hrest]; rfl
  have hr : Rule.primary expression' s =
      (pure (Expr.literal value) : Rule Expr) { s with rest := ts } := by
    rw [Rule.primary_of_constant (hhead ▸ hvalue)]
    change (pure (Expr.literal value) : Rule Expr) { s with rest := s.rest.tail } = _
    rw [hrest]
    rfl
  have hother {q : Keyword} (hq : t.kind ≠ .keyword q) : ∀ u ∈ s.rest.head?,
      u.kind.agrees (.keyword q) = false := by
    rw [hrest]
    rintro u ⟨⟩
    exact Token.isKeyword_eq_false hq
  have hkeyword {q : Keyword} (hq : t.kind = .keyword q) :
      ([Kind.keyword q].any fun k => t.kind.agrees k) = true := by
    rw [hq]
    simp [Kind.agrees]
  by_cases hfalse : t.kind = .keyword .false_
  · rw [Token.constant?, hfalse] at hvalue
    cases hvalue
    exact .takes_then h hrest (hkeyword hfalse) hr fun _ hat _ => .pure hat _
  refine .takes_else h (not_asked (hother hfalse)) fun _ hat => ?_
  by_cases htrue : t.kind = .keyword .true_
  · rw [Token.constant?, htrue] at hvalue
    cases hvalue
    exact .takes_then hat hrest (hkeyword htrue) hr fun _ hat _ => .pure hat _
  refine .takes_else hat (not_asked (hother htrue)) fun _ hat => ?_
  by_cases hnil : t.kind = .keyword .nil_
  · rw [Token.constant?, hnil] at hvalue
    cases hvalue
    exact .takes_then hat hrest (hkeyword hnil) hr fun _ hat _ => .pure hat _
  refine .takes_else hat (not_asked (hother hnil)) fun _ hat => ?_
  refine (Looks.peek hat).bind_follows fun _ hat _ => ?_
  have hliteral : t.kind.literal? = some value := by
    rw [Token.constant?] at hvalue
    split at hvalue
    · contradiction
    · contradiction
    · contradiction
    · exact hvalue
  simp only [hhead, hliteral]
  exact .advance_then hat hrest hr fun _ hat _ => .pure hat _

/-- What comes after the constants in a primary. -/
theorem primaryByToken_follows (he : Follows k true expression expression') :
    Follows (k + 1) true (do
      if ← takes [.identifier] then
        let name ← previous
        return .var (← freshId) name
      else if ← takes [.punctuator .leftParen] then
        let inner ← expression
        discard (consume (.punctuator .rightParen) .parenAfterExpression)
        return .grouping inner
      else fail (.expected .expression)) (Rule.primaryByToken expression') := by
  refine .takes_accept? asks_one (fun name => .previous ?_) (.takes_accepts asks_one ?_ (.fail _))
  · exact Follows.freshId.bind fun id => .pure _
  · refine he.weaken.bind fun inner => ?_
    exact (Follows.consume fun _ => rfl).discard.weaken.bind fun _ => .pure _

theorem primary_follows (he : Follows k true expression expression') :
    Follows (k + 1) true (primary expression) (Rule.primary expression') := by
  intro tokens last reader s hlt hat
  cases hconstant : s.head.constant? with
  | some value =>
    cases hrest : s.rest with
    | nil =>
      have hkind : s.head.kind = .eof := by
        rw [Cursor.head, hrest]
        exact Token.isEnd_iff.mp hat.stop
      rw [Token.constant?, hkind] at hconstant
      cases hconstant
    | cons t ts =>
      rw [Cursor.head, hrest] at hconstant
      exact primary_constant hat hrest hconstant
  | none =>
    have hother {q : Keyword} {value : Literal} (hq : ∀ t : Token, t.kind = .keyword q →
        t.constant? = some value) : ∀ t ∈ s.rest.head?, t.kind.agrees (.keyword q) = false := by
      intro t ht
      refine Token.isKeyword_eq_false fun hkind => ?_
      have hsome := hq t hkind
      rw [← Cursor.head_eq ht, hconstant] at hsome
      cases hsome
    have hliteral : s.head.kind.literal? = none := by
      rw [Token.constant?] at hconstant
      split at hconstant
      · contradiction
      · contradiction
      · contradiction
      · exact hconstant
    refine .takes_else hat (not_asked (hother fun t ht => by rw [Token.constant?, ht]))
      fun _ hat => ?_
    refine .takes_else hat (not_asked (hother fun t ht => by rw [Token.constant?, ht]))
      fun _ hat => ?_
    refine .takes_else hat (not_asked (hother fun t ht => by rw [Token.constant?, ht]))
      fun _ hat => ?_
    refine (Looks.peek hat).bind_follows fun _ hat _ => ?_
    simp only [hliteral]
    exact (primaryByToken_follows he tokens last _ s hlt hat).congr
      (Rule.primary_eq_byToken hat.stop hconstant)

end Primary

theorem arguments_follows (he : Follows k true expression expression') (hfuel : k ≤ fuel) :
    Follows k false (arguments expression fuel) (Rule.arguments expression') :=
  items_follows he hfuel fun args =>
    (Follows.consume fun _ => rfl).weaken.bind fun paren => .pure (args, paren)

theorem callsFrom_follows (he : Follows k true expression expression') (bound : Nat)
    (hbound : bound ≤ k) (hfuel : bound < fuel) (callee : Expr) :
    Follows (bound + 1) false (callsFrom expression fuel callee)
      (Rule.callsFrom expression' bound callee) := by
  induction bound generalizing fuel callee with
  | zero =>
    cases fuel with
    | zero => cases hfuel
    | succ fuel => exact .takes_last (.pure callee)
  | succ bound ih =>
    cases fuel with
    | zero => cases hfuel
    | succ fuel =>
      refine .takes_accepts asks_one ?_ (.pure callee)
      refine (arguments_follows (he.mono hbound) (Nat.le_of_lt_succ hfuel)).bind fun args => ?_
      exact ih (Nat.le_of_succ_le hbound) (Nat.lt_of_succ_lt_succ hfuel) _

theorem call_follows (he : Follows k true expression expression') (hfuel : k < fuel) :
    Follows (k + 1) true (call expression fuel) (Rule.call expression') := by
  refine (primary_follows he).bind fun callee => ?_
  have hcalls (m : Nat) (hm : m < k + 1) := callsFrom_follows he m (Nat.le_of_lt_succ hm)
    (Nat.lt_of_le_of_lt (Nat.le_of_lt_succ hm) hfuel) callee
  exact .length_bind hcalls

/-- By induction on the tokens that may be signs. -/
theorem unary_follows {call : Descent Expr} (hcall : Follows k true call (Rule.call expression'))
    (hfuel : k ≤ fuel) : Follows k true (unary call fuel) (Rule.unary expression') := by
  induction k generalizing fuel with
  | zero => exact .no_tokens
  | succ k ih =>
    cases fuel with
    | zero => cases hfuel
    | succ fuel =>
      have hinner := ih (hcall.mono (Nat.le_succ k)) (Nat.le_of_succ_le_succ hfuel)
      rw [Rule.unary_eq]
      refine .takes_accept? (asks_cons asks_one) (fun operator => .previous ?_) hcall
      exact hinner.weaken.bind fun right => .pure (Expr.unary operator right)

theorem disjunction_follows (hfuel : k ≤ fuel)
    (hunary : Follows k true operand (Rule.unary expression')) :
    Follows k true (joints.foldr (joined fuel) operand) (Rule.disjunction expression') := by
  have hcomparison : Asks Rule.isComparison [.punctuator .greater, .punctuator .greaterEqual,
      .punctuator .less, .punctuator .lessEqual] := fun t => by
    rw [Rule.isComparison, Bool.or_assoc, Bool.or_assoc]
    exact asks_cons (asks_cons (asks_cons asks_one)) t
  refine joined_follows asks_one hfuel (joined_follows asks_one hfuel ?_)
  refine joined_follows (asks_cons asks_one) hfuel (joined_follows hcomparison hfuel ?_)
  exact joined_follows (asks_cons asks_one) hfuel (joined_follows (asks_cons asks_one) hfuel hunary)

theorem assign_follows (he : Follows k false expression expression') (target : Expr)
    (equals : Token) : Follows k false (expression >>= assign target equals)
      (Rule.assignTo expression' target equals) := by
  refine he.bind fun value => ?_
  cases target with
  | var id name => exact Follows.freshId.bind fun id => .pure _
  | _ => exact (Follows.report _).bind fun _ => .pure _

theorem assignment_follows (he : Follows k true expression expression') (hfuel : k < fuel) :
    Follows (k + 1) true (assignment expression fuel) (Rule.assignment expression') := by
  have hunary := unary_follows (call_follows he hfuel) hfuel
  refine (disjunction_follows hfuel hunary).bind fun target => ?_
  exact .takes_accept? asks_one
    (fun equals => .previous (assign_follows he.weaken target equals)) (.pure target)

/-- By induction on the tokens left. -/
theorem expressionUpTo_follows {depth : Nat} (hfuel : k < fuel) (hdepth : k ≤ depth) :
    Follows k true (Descent.expression fuel) (Rule.expressionUpTo depth) := by
  induction k generalizing fuel depth with
  | zero => exact .no_tokens
  | succ k ih =>
    cases fuel with
    | zero => cases hfuel
    | succ fuel =>
      cases depth with
      | zero => cases hdepth
      | succ depth =>
        have hinner := ih (Nat.lt_of_succ_lt_succ hfuel) (Nat.le_of_succ_le_succ hdepth)
        exact assignment_follows hinner (Nat.lt_of_succ_lt_succ hfuel)

theorem expression_follows (hfuel : k < fuel) :
    Follows k true (Descent.expression fuel) Rule.expression := by
  intro tokens last reader s hlt hat
  have hdepth : Follows (s.rest.length + 1) true (Descent.expression fuel)
      (Rule.expressionUpTo (s.rest.length + 1)) :=
    expressionUpTo_follows (Nat.lt_of_le_of_lt hlt hfuel) (Nat.le_refl _)
  exact (hdepth tokens last reader s (Nat.lt_succ_self _) hat).congr rfl

end Expressions

end Descent

end TreeWalk
