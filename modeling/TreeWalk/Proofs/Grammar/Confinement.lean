import TreeWalk.Proofs.Grammar.Taking

/-! Rules that stop at a semicolon. What they make of the tokens before it depends neither on what
comes after it nor on how often or how deep they might go on. -/

namespace TreeWalk.Rule

variable {α β ι κ : Type}

/-- The tokens `ts` stand before the semicolon `mark`, and there is none among them. -/
structure Before (ts : List Token) (mark : Token) : Prop where
  inside : ∀ t ∈ ts, t.kind ≠ .punctuator .semicolon
  mark : mark.kind = .punctuator .semicolon

/-- All rules of a family do the same with the tokens before a semicolon, whatever comes after it:
they end in the same way, leave the same tokens of these, and report and draw the same. -/
def ConfinedAt (r : ι → Rule α) (ts : List Token) (mark : Token) (n : NodeId) : Prop :=
  ∃ result ts' ds n', ts' <:+ ts ∧ ∀ i rest stop reports,
    r i ⟨ts ++ mark :: rest, stop, reports, n⟩ =
      (result, ⟨ts' ++ mark :: rest, stop, reports ++ ds, n'⟩)

/-- They do so with any fewer than `k` tokens. -/
def Confined (k : Nat) (r : ι → Rule α) : Prop :=
  ∀ ts mark n, ts.length < k → Before ts mark → ConfinedAt r ts mark n

theorem Before.of_suffix {ts ts' : List Token} {mark : Token} (h : Before ts mark)
    (hs : ts' <:+ ts) : Before ts' mark :=
  ⟨fun t ht => h.inside t (hs.subset ht), h.mark⟩

/-- No semicolon is of the kind. -/
def Inner (p : Token → Bool) : Prop :=
  ∀ t : Token, t.kind = .punctuator .semicolon → p t = false

theorem inner_punctuator {k : Punctuator} (h : Punctuator.semicolon ≠ k) :
    Inner (·.isPunctuator k) :=
  fun t ht => Token.isPunctuator_eq_false (by rw [ht]; simpa using h)

theorem inner_keyword {k : Keyword} : Inner (·.isKeyword k) :=
  fun t ht => Token.isKeyword_eq_false (by rw [ht]; simp)

theorem inner_identifier : Inner Token.isIdentifier := by
  intro t ht
  rw [Bool.eq_false_iff, ne_eq, Token.isIdentifier_iff, ht]
  simp

theorem Inner.or {p q : Token → Bool} (hp : Inner p) (hq : Inner q) :
    Inner fun t => p t || q t :=
  fun t ht => by simp only [hp t ht, hq t ht, Bool.or_self]

namespace ConfinedAt

variable {r : ι → Rule α} {f : ι → α → Rule β} {ts : List Token} {mark : Token} {n : NodeId}

/-- Rules that leave the tokens as they are. -/
theorem of_eq (result : Except Diagnostic α) (ds : List Diagnostic) (n' : NodeId)
    (h : ∀ i rest stop reports, r i ⟨ts ++ mark :: rest, stop, reports, n⟩ =
      (result, ⟨ts ++ mark :: rest, stop, reports ++ ds, n'⟩)) : ConfinedAt r ts mark n :=
  ⟨result, ts, ds, n', List.suffix_rfl, h⟩

theorem pure (a : α) : ConfinedAt (fun _ : ι => pure a) ts mark n :=
  .of_eq (.ok a) [] n fun _ _ _ _ => by
    rw [List.append_nil]
    rfl

theorem fail (cause : SyntacticCause) :
    ConfinedAt (fun _ : ι => (fail cause : Rule α)) ts mark n := by
  refine .of_eq (.error (.syntactic (ts.headD mark) cause)) [] n fun _ _ _ _ => ?_
  rw [List.append_nil]
  cases ts <;> rfl

theorem reindex (h : ConfinedAt r ts mark n) (g : κ → ι) :
    ConfinedAt (fun j => r (g j)) ts mark n := by
  obtain ⟨result, ts', ds, n', hs, hr⟩ := h
  exact ⟨result, ts', ds, n', hs, fun j => hr (g j)⟩

/-- Only what rules do with these tokens matters. -/
theorem congr {r' : ι → Rule α} (h : ConfinedAt r ts mark n)
    (hr : ∀ i rest stop reports, r' i ⟨ts ++ mark :: rest, stop, reports, n⟩ =
      r i ⟨ts ++ mark :: rest, stop, reports, n⟩) : ConfinedAt r' ts mark n := by
  obtain ⟨result, ts', ds, n', hs, hr'⟩ := h
  exact ⟨result, ts', ds, n', hs, fun i rest stop reports => (hr i rest stop reports).trans
    (hr' i rest stop reports)⟩

theorem bind (hr : ConfinedAt r ts mark n)
    (hf : ∀ a ts' n', ts' <:+ ts → ConfinedAt (fun i => f i a) ts' mark n') :
    ConfinedAt (fun i => r i >>= f i) ts mark n := by
  obtain ⟨result, ts₁, ds₁, n₁, hs₁, hr⟩ := hr
  cases result with
  | error d =>
    refine ⟨.error d, ts₁, ds₁, n₁, hs₁, fun i rest stop reports => ?_⟩
    change (r i >>= f i) _ = _
    rw [bind_apply, hr]
  | ok a =>
    obtain ⟨result, ts₂, ds₂, n₂, hs₂, hf⟩ := hf a ts₁ n₁ hs₁
    refine ⟨result, ts₂, ds₁ ++ ds₂, n₂, hs₂.trans hs₁, fun i rest stop reports => ?_⟩
    change (r i >>= f i) _ = _
    rw [bind_apply, hr, ← List.append_assoc]
    exact hf i rest stop (reports ++ ds₁)

/-- A token that is taken is not left. -/
theorem skip_bind {f : ι → Unit → Rule β} {t : Token}
    (hf : ConfinedAt (fun i => f i ()) ts mark n) :
    ConfinedAt (fun i => skip >>= f i) (t :: ts) mark n := by
  obtain ⟨result, ts', ds, n', hs, hf⟩ := hf
  exact ⟨result, ts', ds, n', hs.trans (List.suffix_cons t ts), hf⟩

end ConfinedAt

namespace Confined

variable {k : Nat} {r : ι → Rule α} {f : ι → α → Rule β} {p : Token → Bool}

theorem no_tokens : Confined 0 r :=
  fun _ _ _ hlt => absurd hlt (Nat.not_lt_zero _)

theorem mono {k' : Nat} (h : Confined k r) (hle : k' ≤ k) : Confined k' r :=
  fun ts mark n hlt hb => h ts mark n (Nat.lt_of_lt_of_le hlt hle) hb

theorem reindex (h : Confined k r) (g : κ → ι) : Confined k fun j => r (g j) :=
  fun ts mark n hlt hb => (h ts mark n hlt hb).reindex g

theorem pure (a : α) : Confined k fun _ : ι => pure a :=
  fun _ _ _ _ _ => .pure a

theorem fail (cause : SyntacticCause) : Confined k fun _ : ι => (fail cause : Rule α) :=
  fun _ _ _ _ _ => .fail cause

theorem bind (hr : Confined k r) (hf : ∀ a, Confined k fun i => f i a) :
    Confined k fun i => r i >>= f i := by
  intro ts mark n hlt hb
  exact (hr ts mark n hlt hb).bind fun a ts' n' hs =>
    hf a ts' mark n' (Nat.lt_of_le_of_lt hs.length_le hlt) (hb.of_suffix hs)

theorem map {g : α → β} (hr : Confined k r) : Confined k fun i => g <$> r i := by
  simp only [map_eq_pure_bind]
  exact hr.bind fun a => .pure (g a)

theorem discard (hr : Confined k r) : Confined k fun i => discard (r i) := by
  have hmap : Confined k fun i => (fun _ => PUnit.unit) <$> r i := hr.map
  exact hmap

theorem ite {c : Prop} [Decidable c] {r' : ι → Rule α} (hr : Confined k r) (hr' : Confined k r') :
    Confined k fun i => if c then r i else r' i := by
  split
  · exact hr
  · exact hr'

/-- A rule that looks at the cursor: there it sees more tokens than those before the semicolon. -/
theorem get_bind {f : ι → Cursor → Rule β}
    (hf : ∀ m ≤ k, Confined m fun j : { j : ι × Cursor // m ≤ j.2.rest.length } =>
      f j.1.1 j.1.2) : Confined k fun i => get >>= f i := by
  intro ts mark n hlt hb
  obtain ⟨result, ts', ds, n', hs, hf⟩ := hf (ts.length + 1) hlt ts mark n (Nat.lt_succ_self _) hb
  refine ⟨result, ts', ds, n', hs, fun i rest stop reports => ?_⟩
  refine hf ⟨(i, ⟨ts ++ mark :: rest, stop, reports, n⟩), ?_⟩ rest stop reports
  simp

theorem report (d : Diagnostic) : Confined k fun _ : ι => modify (·.report d) :=
  fun _ _ n _ _ => .of_eq (.ok ()) [d] n fun _ _ _ _ => rfl

theorem complain (cause : SyntacticCause) : Confined k fun _ : ι => complain cause := by
  intro ts mark n _ _
  refine .of_eq (.ok ()) [.syntactic (ts.headD mark) cause] n fun _ _ _ _ => ?_
  cases ts <;> rfl

theorem freshId : Confined k fun _ : ι => freshId :=
  fun _ _ n _ _ => .of_eq (.ok n) [] (n + 1) fun _ _ _ _ => by
    rw [List.append_nil]
    rfl

theorem sees : Confined k fun _ : ι => sees p := by
  intro ts mark n _ _
  refine .of_eq (.ok (p (ts.headD mark))) [] n fun _ _ _ _ => ?_
  rw [List.append_nil]
  cases ts <;> rfl

theorem acceptWhile (hp : Inner p) : Confined k fun _ : ι => acceptWhile p := by
  intro ts mark n _ hb
  refine ⟨.ok (ts.takeWhile p), ts.dropWhile p, [], n, List.dropWhile_suffix p,
    fun _ rest stop reports => ?_⟩
  have hmark := hp mark hb.mark
  have htake : (ts ++ mark :: rest).takeWhile p = ts.takeWhile p := by
    rw [List.takeWhile_append]
    split
    · rw [List.takeWhile_cons_of_neg (by simp [hmark]), List.append_nil]
      exact (List.takeWhile_prefix p).eq_of_length (by assumption) |>.symm
    · rfl
  have hdrop : (ts ++ mark :: rest).dropWhile p = ts.dropWhile p ++ mark :: rest := by
    rw [List.dropWhile_append]
    split
    · next h =>
      rw [List.isEmpty_iff.mp h, List.dropWhile_cons_of_neg (by simp [hmark])]
      rfl
    · rfl
  rw [List.append_nil, ← htake, ← hdrop]
  rfl

/-- If a token is taken, fewer of them are left. -/
theorem accept?_bind {f : ι → Option Token → Rule β} (hp : Inner p)
    (hsome : ∀ t, Confined k fun i => f i (some t)) (hnone : Confined (k + 1) fun i => f i none) :
    Confined (k + 1) fun i => accept? p >>= f i := by
  intro ts mark n hlt hb
  by_cases h : Lacks p (ts ++ [mark])
  · refine (hnone ts mark n hlt hb).congr fun i rest stop reports => ?_
    have hlacks : Lacks p (ts ++ mark :: rest) := by
      cases ts with
      | nil => simpa [lacks_cons] using h
      | cons t ts => simpa [lacks_cons] using h
    change (Rule.accept? p >>= f i) _ = _
    rw [bind_apply, Takes.accept?_none hlacks stop reports]
  · cases ts with
    | nil => exact absurd (lacks_cons.mpr (hp mark hb.mark)) h
    | cons t ts =>
      have ht : p t = true := by simpa [lacks_cons] using h
      have hs : ts <:+ t :: ts := List.suffix_cons t ts
      obtain ⟨result, ts', ds, n', hs', hf⟩ :=
        hsome t ts mark n (Nat.lt_of_succ_lt_succ hlt) (hb.of_suffix hs)
      refine ⟨result, ts', ds, n', hs'.trans hs, fun i rest stop reports => ?_⟩
      change (Rule.accept? p >>= f i) _ = _
      rw [List.cons_append, bind_apply, Takes.accept? ht stop reports]
      exact hf i rest stop reports

theorem accepts_bind {yes no : ι → Rule β} (hp : Inner p) (hyes : Confined k yes)
    (hno : Confined (k + 1) no) :
    Confined (k + 1) fun i => accepts p >>= fun b => if b then yes i else no i := by
  unfold Rule.accepts
  simp only [bind_assoc, pure_bind]
  exact accept?_bind hp (fun _ => hyes) hno

theorem accepts (hp : Inner p) : Confined k fun _ : ι => accepts p := by
  cases k with
  | zero => exact .no_tokens
  | succ k =>
    unfold Rule.accepts
    exact accept?_bind hp (fun _ => .pure true) (.pure false)

theorem expect {what : Expectation} (hp : Inner p) : Confined k fun _ : ι => expect p what := by
  cases k with
  | zero => exact .no_tokens
  | succ k =>
    unfold Rule.expect
    exact accept?_bind hp (fun t => .pure t) (.fail _)

/-- Bounds that are all positive leave a round to each. -/
theorem exists_succ_of_le {bound : ι → Nat} (hbound : ∀ i, k + 1 ≤ bound i) :
    ∃ b : ι → Nat, bound = fun i => b i + 1 :=
  ⟨fun i => bound i - 1, funext fun i =>
    (Nat.sub_add_cancel (Nat.le_trans (Nat.le_add_left 1 k) (hbound i))).symm⟩

/-- Any bound is enough that is above the number of tokens. -/
theorem moreItems {tooMany : SyntacticCause} {item : ι → Rule α} (hitem : Confined k item)
    {bound : ι → Nat} (hbound : ∀ i, k ≤ bound i) (items : List α) :
    Confined k fun i => moreItems tooMany (item i) (bound i) items := by
  induction k generalizing items bound with
  | zero => exact .no_tokens
  | succ k ih =>
    obtain ⟨bound, rfl⟩ := exists_succ_of_le hbound
    have hnext : Confined k fun i =>
        item i >>= fun a => Rule.moreItems tooMany (item i) (bound i) (items ++ [a]) :=
      (hitem.mono (Nat.le_succ k)).bind fun a =>
        ih (hitem.mono (Nat.le_succ k)) (fun i => Nat.le_of_succ_le_succ (hbound i)) _
    simp only [Rule.moreItems]
    refine accepts_bind (inner_punctuator (by decide)) ?_ (.pure items)
    exact ite ((complain tooMany).bind fun _ => hnext) hnext

theorem commaSeparated {tooMany : SyntacticCause} {item : ι → Rule α} (hitem : Confined k item) :
    Confined k fun i => commaSeparated tooMany (item i) := by
  unfold Rule.commaSeparated
  refine hitem.bind fun first => .get_bind fun m hm => ?_
  exact ((hitem.mono hm).reindex fun j : { j : ι × Cursor // m ≤ j.2.rest.length } =>
    j.1.1).moreItems (fun j => j.2) _

end Confined

section Expressions

variable {k : Nat} {build : Expr → Token → Expr → Expr} {isOperator : Token → Bool}
  {operand expression : ι → Rule Expr}

theorem leftAssocFrom_confined (hp : Inner isOperator) (ho : Confined k operand)
    {bound : ι → Nat} (hbound : ∀ i, k ≤ bound i) (left : Expr) :
    Confined k fun i => leftAssocFrom build isOperator (operand i) (bound i) left := by
  induction k generalizing left bound with
  | zero => exact .no_tokens
  | succ k ih =>
    obtain ⟨bound, rfl⟩ := Confined.exists_succ_of_le hbound
    have ho' := ho.mono (Nat.le_succ k)
    simp only [leftAssocFrom]
    refine .accept?_bind hp (fun operator => ho'.bind fun right => ?_) (.pure left)
    exact ih ho' (fun i => Nat.le_of_succ_le_succ (hbound i)) _

theorem leftAssoc_confined (hp : Inner isOperator) (ho : Confined k operand) :
    Confined k fun i => leftAssoc build isOperator (operand i) := by
  unfold leftAssoc
  refine ho.bind fun left => .get_bind fun m hm => ?_
  exact leftAssocFrom_confined hp
    ((ho.mono hm).reindex fun j : { j : ι × Cursor // m ≤ j.2.rest.length } => j.1.1)
    (fun j => j.2) left

section Primary

variable {r : Rule Expr} {c : Cursor}

/-- What a primary is made of shows in its first token. -/
theorem primary_of_constant {value : Literal} (h : c.head.constant? = some value) :
    primary r c = (skip >>= fun _ => pure (Expr.literal value)) c := by
  have hget : (get : Rule Cursor) c = (.ok c, c) := rfl
  unfold primary
  rw [bind_apply, hget]
  dsimp only
  rw [h]

theorem primary_of_no_constant (h : c.head.constant? = none) :
    primary r c = (if c.head.isIdentifier then do
        skip
        return Expr.var (← freshId) c.head
      else if c.head.isPunctuator .leftParen then do
        skip
        let inner ← r
        discard (expect (·.isPunctuator .rightParen) .parenAfterExpression)
        return Expr.grouping inner
      else fail (.expected .expression) : Rule Expr) c := by
  have hget : (get : Rule Cursor) c = (.ok c, c) := rfl
  unfold primary
  rw [bind_apply, hget]
  dsimp only
  rw [h]

end Primary

/-- An expression inside another one comes after a token of the outer one. -/
theorem primary_confined (he : Confined k expression) :
    Confined (k + 1) fun i => primary (expression i) := by
  intro ts mark n hlt hb
  have hhead {rest : List Token} {stop : Token} {reports : List Diagnostic} :
      (⟨ts ++ mark :: rest, stop, reports, n⟩ : Cursor).head = ts.headD mark := by
    cases ts <;> rfl
  cases hc : (ts.headD mark).constant? with
  | some value =>
    have hconstant : ConfinedAt (fun _ : ι => skip >>= fun _ => pure (Expr.literal value)) ts mark
        n := by
      cases ts with
      | nil =>
        rw [List.headD_nil, Token.constant?, hb.mark] at hc
        cases hc
      | cons t ts => exact .skip_bind (.pure (Expr.literal value))
    exact hconstant.congr fun i rest stop reports => primary_of_constant (hhead ▸ hc)
  | none =>
    suffices hother : ConfinedAt (fun i => (if (ts.headD mark).isIdentifier then do
        skip
        return Expr.var (← freshId) (ts.headD mark)
      else if (ts.headD mark).isPunctuator .leftParen then do
        skip
        let inner ← expression i
        discard (expect (·.isPunctuator .rightParen) .parenAfterExpression)
        return Expr.grouping inner
      else fail (.expected .expression) : Rule Expr)) ts mark n by
      refine hother.congr fun i rest stop reports => ?_
      rw [primary_of_no_constant (hhead ▸ hc), hhead]
    cases ts with
    | nil =>
      -- The mark behind the tokens is one that nothing inside an expression can take.
      simp only [List.headD_nil, inner_identifier mark hb.mark,
        inner_punctuator (k := .leftParen) (by decide) mark hb.mark, Bool.false_eq_true,
        ↓reduceIte]
      exact .fail _
    | cons t ts =>
      have hs : ts <:+ t :: ts := List.suffix_cons t ts
      have hlt' : ts.length < k := Nat.lt_of_succ_lt_succ hlt
      have hinner : ConfinedAt (fun i => do
          let inner ← expression i
          discard (expect (·.isPunctuator .rightParen) .parenAfterExpression)
          return Expr.grouping inner) ts mark n :=
        he.bind (fun inner => (Confined.expect (inner_punctuator (by decide))).discard.bind
          fun _ => .pure (Expr.grouping inner)) ts mark n hlt' (hb.of_suffix hs)
      have hnamed : ConfinedAt (fun _ : ι => do return Expr.var (← freshId) t) ts mark n :=
        Confined.freshId.bind (fun id => .pure (Expr.var id t)) ts mark n hlt' (hb.of_suffix hs)
      rw [List.headD_cons]
      split
      · exact .skip_bind hnamed
      · split
        · exact .skip_bind hinner
        · exact .fail _

theorem arguments_confined (he : Confined k expression) :
    Confined k fun i => arguments (expression i) := by
  have hclose (args : List Expr) : Confined k fun _ : ι =>
      expect (·.isPunctuator .rightParen) .parenAfterArguments >>= fun t => pure (args, t) :=
    (Confined.expect (inner_punctuator (by decide))).bind fun t => .pure (args, t)
  unfold arguments
  refine Confined.sees.bind fun yes => .ite ?_ ?_
  · exact (Confined.pure []).bind hclose
  · exact he.commaSeparated.bind hclose

/-- The expressions in a call come after its parenthesis. -/
theorem callsFrom_confined (he : Confined k expression) {bound : ι → Nat}
    (hbound : ∀ i, k + 1 ≤ bound i) (callee : Expr) :
    Confined (k + 1) fun i => callsFrom (expression i) (bound i) callee := by
  induction k generalizing callee bound with
  | zero =>
    obtain ⟨bound, rfl⟩ := Confined.exists_succ_of_le hbound
    simp only [callsFrom]
    exact .accepts_bind (inner_punctuator (by decide)) .no_tokens (.pure callee)
  | succ k ih =>
    obtain ⟨bound, rfl⟩ := Confined.exists_succ_of_le hbound
    simp only [callsFrom]
    refine .accepts_bind (inner_punctuator (by decide)) ?_ (.pure callee)
    refine (arguments_confined he).bind fun argumentsAndParen => ?_
    exact ih (he.mono (Nat.le_succ k)) (fun i => Nat.le_of_succ_le_succ (hbound i)) _

theorem call_confined (he : Confined k expression) :
    Confined (k + 1) fun i => call (expression i) := by
  unfold call
  refine (primary_confined he).bind fun callee => .get_bind fun m hm => ?_
  cases m with
  | zero => exact .no_tokens
  | succ m =>
    exact callsFrom_confined
      ((he.mono (Nat.le_of_succ_le_succ hm)).reindex
        fun j : { j : ι × Cursor // m + 1 ≤ j.2.rest.length } => j.1.1)
      (fun j => j.2) callee

theorem unary_confined (he : Confined k expression) :
    Confined (k + 1) fun i => unary (expression i) := by
  unfold unary
  refine (Confined.acceptWhile ?_).bind fun operators => (call_confined he).bind fun operand =>
    .pure (operators.foldr .unary operand)
  exact (inner_punctuator (by decide)).or (inner_punctuator (by decide))

theorem comparison_confined (he : Confined k expression) :
    Confined (k + 1) fun i => comparison (expression i) := by
  have hfactor : Confined (k + 1) fun i => factor (expression i) :=
    leftAssoc_confined ((inner_punctuator (by decide)).or (inner_punctuator (by decide)))
      (unary_confined he)
  have hterm : Confined (k + 1) fun i => term (expression i) :=
    leftAssoc_confined ((inner_punctuator (by decide)).or (inner_punctuator (by decide))) hfactor
  refine leftAssoc_confined ?_ hterm
  exact (((inner_punctuator (by decide)).or (inner_punctuator (by decide))).or
    (inner_punctuator (by decide))).or (inner_punctuator (by decide))

theorem disjunction_confined (he : Confined k expression) :
    Confined (k + 1) fun i => disjunction (expression i) := by
  have hequality : Confined (k + 1) fun i => equality (expression i) :=
    leftAssoc_confined ((inner_punctuator (by decide)).or (inner_punctuator (by decide)))
      (comparison_confined he)
  exact leftAssoc_confined inner_keyword (leftAssoc_confined inner_keyword hequality)

theorem assignTo_confined (he : Confined k expression) (target : Expr) (equals : Token) :
    Confined k fun i => assignTo (expression i) target equals := by
  unfold assignTo
  refine he.bind fun value => ?_
  cases target with
  | var id name => exact Confined.freshId.bind fun id => .pure _
  | _ => exact (Confined.report _).bind fun _ => .pure _

theorem assignment_confined (he : Confined k expression) :
    Confined (k + 1) fun i => assignment (expression i) := by
  unfold assignment
  refine (disjunction_confined he).bind fun target => ?_
  exact .accept?_bind (inner_punctuator (by decide)) (assignTo_confined he target) (.pure target)

/-- Nesting as deep as the tokens before the semicolon is enough. -/
theorem expressionUpTo_confined (k : Nat) :
    Confined k fun depth : { depth // k ≤ depth } => expressionUpTo depth := by
  induction k with
  | zero => exact .no_tokens
  | succ k ih =>
    have h : Confined (k + 1) fun depth : { depth // k ≤ depth } =>
        assignment (expressionUpTo depth) := assignment_confined ih
    intro ts mark n hlt hb
    refine ((h ts mark n hlt hb).reindex fun depth : { depth // k + 1 ≤ depth } =>
      ⟨depth.1 - 1, Nat.le_sub_one_of_lt depth.2⟩).congr fun depth rest stop reports => ?_
    obtain ⟨depth, hdepth⟩ := depth
    obtain ⟨depth, rfl⟩ := Nat.exists_eq_add_of_le' (Nat.le_trans (Nat.le_add_left 1 k) hdepth)
    rfl

/-- What an expression makes of the tokens before a semicolon. -/
theorem expression_confined : Confined k fun _ : ι => Rule.expression := by
  intro ts mark n hlt hb
  obtain ⟨result, ts', ds, n', hs, h⟩ :=
    expressionUpTo_confined (ts.length + 1) ts mark n (Nat.lt_succ_self _) hb
  refine ⟨result, ts', ds, n', hs, fun _ rest stop reports => ?_⟩
  exact h ⟨(ts ++ mark :: rest).length + 1, by simp⟩ rest stop reports

end Expressions

end TreeWalk.Rule
