import TreeWalk.Proofs.Grammar.Derivation
import TreeWalk.Proofs.Grammar.Taking

/-! The rules for expressions take whatever the grammar derives, provided that what follows does
not continue it. -/

namespace TreeWalk.Grammar

namespace Level

def rank : Level → Nat
  | assignment => 0
  | disjunction => 1
  | conjunction => 2
  | equality => 3
  | comparison => 4
  | term => 5
  | factor => 6
  | unary => 7
  | call => 8
  | primary => 9

/-- Tokens after a whole expression of a level that the rule for the level would take as well. -/
def continuations : Level → List Kind
  | assignment => [.punctuator .equal]
  | call => [.punctuator .leftParen]
  | level => level.operators

theorem rank_tighter {level inner : Level} (h : level.tighter? = some inner) :
    inner.rank = level.rank + 1 := by
  cases level <;> cases h <;> rfl

theorem continuations_of_operators {level : Level} {k : Kind} (h : k ∈ level.operators) :
    k ∈ level.continuations := by
  cases level <;> simp_all [operators, continuations]

theorem continuations_cases {level : Level} {k : Kind} (h : k ∈ level.continuations) :
    k = .punctuator .equal ∨ k = .punctuator .leftParen ∨ k ∈ level.operators := by
  cases level <;> simp_all [operators, continuations]

/-- No token joins operands at two levels, and none that joins operands is a call. -/
theorem operators_disjoint {level other : Level} {k : Kind} (hk : k ∈ level.operators)
    (h : level.rank < other.rank) : k ∉ other.continuations := by
  cases level <;> simp only [operators, List.mem_cons, List.not_mem_nil, or_false] at hk <;>
    cases other <;> simp [rank] at h <;> simp [continuations, operators] <;> grind

end Level

/-- What follows does not continue an expression of a level or of any tighter one. -/
def Stops (level : Level) (ts : List Token) : Prop :=
  ∀ t ∈ ts.head?, ∀ other : Level, level.rank ≤ other.rank → t.kind ∉ other.continuations

theorem Stops.tighter {level inner : Level} {ts : List Token} (h : Stops level ts)
    (hl : level.tighter? = some inner) : Stops inner ts := by
  intro t ht other hother
  have := Level.rank_tighter hl
  exact h t ht other (by omega)

theorem stops_operator {level inner : Level} {operator : Token} {ts : List Token}
    (hl : level.tighter? = some inner) (hop : operator.kind ∈ level.operators) :
    Stops inner (operator :: ts) := by
  intro t ht other hother
  obtain rfl : operator = t := by simpa using ht
  have := Level.rank_tighter hl
  exact Level.operators_disjoint hop (by omega)

/-- The tokens that close what an expression stands in. -/
theorem stops_closing {level : Level} {closing : Token} {ts : List Token}
    (h : closing.kind ∈ [.punctuator .semicolon, .punctuator .comma, .punctuator .rightParen]) :
    Stops level (closing :: ts) := by
  intro t ht other hother
  obtain rfl : closing = t := by simpa using ht
  simp only [List.mem_cons, List.not_mem_nil, or_false] at h
  cases other <;> rcases h with h | h | h <;> simp [Level.continuations, Level.operators, h]

/-- What an expression can start with. -/
def startsExpression : Kind → Bool
  | .number _ | .string _ | .identifier => true
  | .keyword .true_ | .keyword .false_ | .keyword .nil_ => true
  | .punctuator .leftParen | .punctuator .bang | .punctuator .minus => true
  | _ => false

/-- What a call or anything tighter can start with. -/
def startsOperand : Kind → Bool
  | .punctuator .bang | .punctuator .minus => false
  | k => startsExpression k

theorem startsExpression_of_startsOperand {k : Kind} (h : startsOperand k = true) :
    startsExpression k = true := by
  unfold startsOperand at h
  split at h
  · cases h
  · cases h
  · exact h

theorem Constant.startsOperand {t : Token} {value : Literal} (h : Constant t value) :
    startsOperand t.kind = true := by
  cases h with
  | number h => rw [h]; rfl
  | string h => rw [h]; rfl
  | true_ h => rw [h]; rfl
  | false_ h => rw [h]; rfl
  | nil h => rw [h]; rfl

theorem Constant.constant? {t : Token} {value : Literal} (h : Constant t value) :
    t.constant? = some value := by
  unfold Token.constant?
  cases h with
  | number h => rw [h]; rfl
  | string h => rw [h]; rfl
  | true_ h => rw [h]
  | false_ h => rw [h]
  | nil h => rw [h]

theorem constant?_eq_none {t : Token} (h : t.kind = .identifier ∨ t.kind = .punctuator .leftParen) :
    t.constant? = none := by
  unfold Token.constant?
  rcases h with h | h <;> rw [h] <;> rfl

/-- An expression has a first token, which is a sign only at the level of signs or above it. -/
theorem Phrase.head {level : Level} {n n' : Nat} {ts : List Token} {e : Expr}
    (h : Phrase level n ts e n') : ∃ t ts', ts = t :: ts' ∧ startsExpression t.kind = true ∧
      (Level.unary.rank < level.rank → startsOperand t.kind = true) := by
  match h with
  | .tighter hl h =>
    obtain ⟨t, ts', rfl, hstart, hoperand⟩ := h.head
    have := Level.rank_tighter hl
    exact ⟨t, ts', rfl, hstart, fun hlt => hoperand (by omega)⟩
  | .operation hl hop h _ =>
    obtain ⟨t, ts', rfl, hstart, hoperand⟩ := h.head
    exact ⟨t, _, rfl, hstart, hoperand⟩
  | .assignment hname _ _ =>
    refine ⟨_, _, rfl, by rw [hname]; rfl, fun hlt => absurd hlt (by decide)⟩
  | .unary hop _ =>
    refine ⟨_, _, rfl, ?_, fun hlt => absurd hlt (by decide)⟩
    rcases hop with hop | hop <;> rw [hop] <;> rfl
  | .emptyCall h _ _ =>
    obtain ⟨t, ts', rfl, hstart, hoperand⟩ := h.head
    exact ⟨t, _, rfl, hstart, hoperand⟩
  | .call h _ _ _ _ =>
    obtain ⟨t, ts', rfl, hstart, hoperand⟩ := h.head
    exact ⟨t, _, rfl, hstart, hoperand⟩
  | .constant hc =>
    have hoperand := hc.startsOperand
    exact ⟨_, _, rfl, startsExpression_of_startsOperand hoperand, fun _ => hoperand⟩
  | .name hname => exact ⟨_, _, rfl, by rw [hname]; rfl, fun _ => by rw [hname]; rfl⟩
  | .grouping hopening _ _ =>
    exact ⟨_, _, rfl, by rw [hopening]; rfl, fun _ => by rw [hopening]; rfl⟩

theorem Arguments.head {n n' : Nat} {ts : List Token} {es : List Expr}
    (h : Arguments n ts es n') : ∃ t ts', ts = t :: ts' ∧ startsExpression t.kind = true := by
  match h with
  | .one h =>
    obtain ⟨t, ts', hts, hstart, -⟩ := h.head
    exact ⟨t, ts', hts, hstart⟩
  | .more h _ _ =>
    obtain ⟨t, ts', rfl, hstart⟩ := h.head
    exact ⟨t, _, rfl, hstart⟩

theorem not_punctuator_of_starts {t : Token} {p : Punctuator} (h : startsExpression t.kind = true)
    (hp : startsExpression (.punctuator p) = false) : t.isPunctuator p = false := by
  apply Token.isPunctuator_eq_false
  intro hk
  rw [hk, hp] at h
  cases h

theorem not_keyword_of_starts {t : Token} {k : Keyword} (h : startsExpression t.kind = true)
    (hk : startsExpression (.keyword k) = false) : t.isKeyword k = false := by
  apply Token.isKeyword_eq_false
  intro hkind
  rw [hkind, hk] at h
  cases h

theorem Phrase.length_pos {level : Level} {n n' : Nat} {ts : List Token} {e : Expr}
    (h : Phrase level n ts e n') : 0 < ts.length := by
  obtain ⟨t, ts', rfl, -⟩ := h.head
  exact Nat.succ_pos _

end TreeWalk.Grammar

namespace TreeWalk.Rule
open Grammar

/-- A rule takes every expression of a level that is no longer than `size`. -/
def Completes (level : Level) (size : Nat) (r : Rule Expr) : Prop :=
  ∀ n ts e n' more, Phrase level n ts e n' → ts.length ≤ size → Stops level more →
    Takes r (ts ++ more) n e more n'

section Loops

variable {operand : Rule Expr} {level inner : Level} {isOperator : Token → Bool} {size : Nat}

theorem leftAssocFrom_round {build : Expr → Token → Expr → Expr} {bound n n' : Nat}
    {ts more : List Token} {left right : Expr} {operator : Token}
    (hop : isOperator operator = true) (h : Takes operand ts n right more n') :
    Becomes (leftAssocFrom build isOperator operand (bound + 1) left) (operator :: ts) n
      (leftAssocFrom build isOperator operand bound (build left operator right)) more n' := by
  rw [leftAssocFrom]
  exact (Becomes.bind (Takes.accept? hop)).trans (Becomes.bind h)

/-- By induction on the operands joined so far, each of which is one more round of the loop. -/
theorem leftAssoc_reaches {level inner : Level} (hl : level.tighter? = some inner)
    (hlevel : level.operators ≠ [])
    (hop : ∀ t, isOperator t = true ↔ t.kind ∈ level.operators) (ho : Completes inner size operand)
    {n n' : Nat} {ts : List Token} {e : Expr} (h : Phrase level n ts e n')
    (hsize : ts.length ≤ size) (more : List Token) (hmore : Stops inner more) :
    Reaches (leftAssoc level.join isOperator operand) (ts ++ more) n
      (fun bound => leftAssocFrom level.join isOperator operand bound e) more n' := by
  match h with
  | .tighter hl' h =>
    obtain rfl := Option.some.inj (hl.symm.trans hl')
    refine ⟨more.length, Nat.le_refl _, ?_⟩
    unfold leftAssoc
    have hfirst := ho _ _ _ _ more h hsize hmore
    refine (Becomes.bind hfirst).trans ?_
    intro stop reports
    rfl
  | .operation hl' hk h₁ h₂ =>
    obtain rfl := Option.some.inj (hl.symm.trans hl')
    next n₁ ts₁ ts₂ left right operator =>
    simp only [List.length_append, List.length_cons] at hsize
    have hsize₁ : ts₁.length ≤ size := Nat.le_of_add_right_le hsize
    have hsize₂ : ts₂.length ≤ size := Nat.le_of_succ_le (Nat.le_of_add_left_le hsize)
    have hfirst := leftAssoc_reaches hl hlevel hop ho h₁ hsize₁ (operator :: (ts₂ ++ more))
      (stops_operator hl hk)
    have hsecond := ho _ _ _ _ more h₂ hsize₂ hmore
    have hlen : more.length < (operator :: (ts₂ ++ more)).length := by
      simp only [List.length_append, List.length_cons]
      omega
    rw [List.append_assoc, List.cons_append]
    exact hfirst.step hlen fun bound => leftAssocFrom_round ((hop operator).mpr hk) hsecond
  | .assignment _ _ _ => exact absurd rfl hlevel
  | .unary _ _ => exact absurd rfl hlevel
  | .emptyCall _ _ _ => exact absurd rfl hlevel
  | .call _ _ _ _ _ => exact absurd rfl hlevel
  | .constant _ => exact absurd rfl hlevel
  | .name _ => exact absurd rfl hlevel
  | .grouping _ _ _ => exact absurd rfl hlevel

theorem leftAssoc_completes (level : Level) (hl : level.tighter? = some inner) (hlevel : level.operators ≠ [])
    (hop : ∀ t, isOperator t = true ↔ t.kind ∈ level.operators)
    (ho : Completes inner size operand) :
    Completes level size (leftAssoc level.join isOperator operand) := by
  intro n ts e n' more h hsize hmore
  refine (leftAssoc_reaches hl hlevel hop ho h hsize more (hmore.tighter hl)).takes fun bound => ?_
  have hlacks : Lacks isOperator more := by
    intro t ht
    have hk := hmore t ht level (Nat.le_refl _)
    rw [Bool.eq_false_iff]
    intro hyes
    exact hk (Level.continuations_of_operators ((hop t).mp hyes))
  cases bound with
  | zero =>
    rw [leftAssocFrom]
    exact Takes.pure
  | succ bound =>
    rw [leftAssocFrom]
    exact (Takes.accept?_none hlacks).bind Takes.pure

variable {α : Type} {tooMany : SyntacticCause} {item : Rule α} {n n' : Nat}
  {ts more : List Token} {a : α} {items : List α}

theorem commaSeparated_first (h : Takes item ts n a more n') :
    Reaches (commaSeparated tooMany item) ts n
      (fun bound => moreItems tooMany item bound [a]) more n' := by
  refine ⟨more.length, Nat.le_refl _, ?_⟩
  unfold commaSeparated
  refine (Becomes.bind h).trans ?_
  intro stop reports
  rfl

theorem moreItems_round {comma : Token} {bound : Nat} (hcomma : comma.kind = .punctuator .comma)
    (hroom : items.length < 255) (h : Takes item ts n a more n') :
    Becomes (moreItems tooMany item (bound + 1) items) (comma :: ts) n
      (moreItems tooMany item bound (items ++ [a])) more n' := by
  rw [moreItems]
  refine (Becomes.bind (Takes.accepts (Token.isPunctuator_iff.mpr hcomma))).trans ?_
  have hfew : ¬ maxArity ≤ items.length := by
    unfold maxArity
    omega
  simp only [↓reduceIte, hfew]
  exact Becomes.bind h

theorem moreItems_end {bound : Nat} (h : Lacks (·.isPunctuator .comma) more) :
    Takes (moreItems tooMany item bound items) more n items more n := by
  cases bound with
  | zero =>
    rw [moreItems]
    exact Takes.pure
  | succ bound =>
    rw [moreItems]
    exact (Takes.accepts_false h).bind Takes.pure

end Loops

section Expressions

variable {expression : Rule Expr} {size : Nat}

theorem primary_completes (he : Completes .assignment size expression) :
    Completes .primary (size + 1) (primary expression) := by
  intro n ts e n' more h hsize hmore
  match h with
  | .tighter hl _ => cases hl
  | .operation hl _ _ _ => cases hl
  | .constant hc =>
    refine Takes.get_bind fun stop reports => ?_
    simp only [Cursor.head, List.cons_append, List.nil_append, List.headD_cons, hc.constant?]
    exact Takes.skip.bind Takes.pure
  | .name hname =>
    refine Takes.get_bind fun stop reports => ?_
    simp only [Cursor.head, List.cons_append, List.nil_append, List.headD_cons,
      constant?_eq_none (Or.inl hname), Token.isIdentifier_iff.mpr hname, ↓reduceIte]
    exact Takes.skip.bind (Takes.freshId.bind Takes.pure)
  | .grouping hopening h hclosing =>
    next ts e opening closing =>
    simp only [List.length_cons, List.length_append, List.length_nil] at hsize
    have hinner := he _ _ _ _ (closing :: more) h (by omega) (stops_closing (by simp [hclosing]))
    have hnone := constant?_eq_none (Or.inr hopening)
    have hname : opening.isIdentifier = false := by
      rw [Bool.eq_false_iff, ne_eq, Token.isIdentifier_iff, hopening]
      simp
    refine Takes.get_bind fun stop reports => ?_
    simp only [Cursor.head, List.cons_append, List.headD_cons, hnone, hname, Bool.false_eq_true,
      Token.isPunctuator_iff.mpr hopening, ↓reduceIte, List.append_assoc, List.nil_append]
    refine Takes.skip.bind (hinner.bind ?_)
    exact (Takes.expect (Token.isPunctuator_iff.mpr hclosing)).discard.bind Takes.pure

/-- By induction on the arguments taken so far. The limit on their number makes every round but
the last one go without a complaint. -/
theorem arguments_reaches (he : Completes .assignment size expression) {n n' : Nat}
    {ts : List Token} {es : List Expr} (h : Arguments n ts es n') (hsize : ts.length ≤ size)
    (hlen : es.length ≤ 255) (more : List Token) (hmore : Stops .assignment more) :
    Reaches (commaSeparated .tooManyArguments expression) (ts ++ more) n
      (fun bound => moreItems .tooManyArguments expression bound es) more n' := by
  match h with
  | .one h => exact commaSeparated_first (he _ _ _ _ more h hsize hmore)
  | .more h₁ hcomma h₂ =>
    next n₁ ts₁ ts₂ es e comma =>
    simp only [List.length_append, List.length_cons, List.length_nil] at hsize hlen
    have hfirst := arguments_reaches he h₁ (by omega) (by omega) (comma :: (ts₂ ++ more))
      (stops_closing (by simp [hcomma]))
    have hlast := he _ _ _ _ more h₂ (by omega) hmore
    rw [List.append_assoc, List.cons_append]
    refine hfirst.step ?_ fun bound => moreItems_round hcomma (by omega) hlast
    simp only [List.length_append, List.length_cons]
    omega

/-- A closing parenthesis is no argument, so a list that is not empty is never taken for one. -/
theorem arguments_takes (he : Completes .assignment size expression) {n n' : Nat}
    {ts : List Token} {es : List Expr} {closing : Token} (h : Arguments n ts es n')
    (hsize : ts.length ≤ size) (hlen : es.length ≤ 255)
    (hclosing : closing.kind = .punctuator .rightParen) (more : List Token) :
    Takes (arguments expression) (ts ++ closing :: more) n (es, closing) more n' := by
  have hreaches := arguments_reaches he h hsize hlen (closing :: more)
    (stops_closing (by simp [hclosing]))
  have hcomma : Lacks (·.isPunctuator .comma) (closing :: more) :=
    lacks_punctuator (by simp [hclosing])
  have hlist := hreaches.takes fun bound => moreItems_end hcomma
  have hparen := Token.isPunctuator_iff.mpr hclosing
  obtain ⟨t, ts', rfl, hstart⟩ := h.head
  unfold arguments
  apply (Takes.sees (not_punctuator_of_starts hstart rfl)).bind
  exact hlist.bind ((Takes.expect hparen).bind Takes.pure)

theorem arguments_takes_none {n : Nat} {closing : Token} {more : List Token}
    (hclosing : closing.kind = .punctuator .rightParen) :
    Takes (arguments expression) (closing :: more) n ([], closing) more n := by
  have hparen := Token.isPunctuator_iff.mpr hclosing
  unfold arguments
  apply (Takes.sees hparen).bind
  exact Takes.pure.bind ((Takes.expect hparen).bind Takes.pure)

theorem callsFrom_round {callee : Expr} {arguments : List Expr} {opening closing : Token}
    {n n' : Nat} {ts more : List Token} {bound : Nat}
    (hopening : opening.kind = .punctuator .leftParen)
    (h : Takes (Rule.arguments expression) ts n (arguments, closing) more n') :
    Becomes (callsFrom expression (bound + 1) callee) (opening :: ts) n
      (callsFrom expression bound (.call callee closing arguments)) more n' := by
  rw [callsFrom]
  refine (Becomes.bind (Takes.accepts (Token.isPunctuator_iff.mpr hopening))).trans ?_
  simp only [↓reduceIte]
  exact Becomes.bind h

theorem call_reaches (he : Completes .assignment size expression) {n n' : Nat} {ts : List Token}
    {e : Expr} (h : Phrase .call n ts e n') (hsize : ts.length ≤ size + 1) (more : List Token) :
    Reaches (call expression) (ts ++ more) n (fun bound => callsFrom expression bound e) more
      n' := by
  match h with
  | .tighter hl h =>
    cases hl
    have hstops : Stops .primary more := by
      intro t ht other hother
      cases other <;> simp [Level.rank] at hother
      simp [Level.continuations, Level.operators]
    refine ⟨more.length, Nat.le_refl _, ?_⟩
    unfold call
    refine (Becomes.bind (primary_completes he _ _ _ _ more h hsize hstops)).trans ?_
    intro stop reports
    rfl
  | .operation _ hop _ _ => cases hop
  | .emptyCall h hopening hclosing =>
    next ts callee opening closing =>
    simp only [List.length_append, List.length_cons, List.length_nil] at hsize
    have hcallee := call_reaches he h (by omega) (opening :: closing :: more)
    rw [List.append_assoc, List.cons_append, List.cons_append, List.nil_append]
    refine hcallee.step ?_ fun bound =>
      callsFrom_round hopening (arguments_takes_none hclosing)
    simp only [List.length_cons]
    omega
  | .call h hopening hargs hlen hclosing =>
    next n₁ ts₁ ts₂ callee arguments opening closing =>
    simp only [List.length_append, List.length_cons, List.length_nil] at hsize
    have hcallee := call_reaches he h (by omega) (opening :: (ts₂ ++ closing :: more))
    have htakes := arguments_takes he hargs (by omega) hlen hclosing more
    rw [List.append_assoc, List.cons_append, List.append_assoc, List.cons_append, List.nil_append]
    refine hcallee.step ?_ fun bound => callsFrom_round hopening htakes
    simp only [List.length_cons, List.length_append]
    omega

theorem call_completes (he : Completes .assignment size expression) :
    Completes .call (size + 1) (call expression) := by
  intro n ts e n' more h hsize hmore
  refine (call_reaches he h hsize more).takes fun bound => ?_
  have hlacks : Lacks (·.isPunctuator .leftParen) more := by
    intro t ht
    have hk := hmore t ht .call (Nat.le_refl _)
    rw [Bool.eq_false_iff, ne_eq, Token.isPunctuator_iff]
    simpa [Level.continuations] using hk
  cases bound with
  | zero =>
    rw [callsFrom]
    exact Takes.pure
  | succ bound =>
    rw [callsFrom]
    exact (Takes.accepts_false hlacks).bind Takes.pure

/-- The signs at the start of an expression, and the call they stand before. -/
theorem signs_of_phrase {n n' : Nat} {ts : List Token} {e : Expr} (h : Phrase .unary n ts e n') :
    ∃ operators ts₁ operand, ts = operators ++ ts₁ ∧ Phrase .call n ts₁ operand n' ∧
      e = operators.foldr .unary operand ∧
      ∀ t ∈ operators, (t.isPunctuator .bang || t.isPunctuator .minus) = true := by
  match h with
  | .tighter hl h =>
    cases hl
    exact ⟨[], _, _, rfl, h, rfl, by simp⟩
  | .operation _ hop _ _ => cases hop
  | .unary hop h =>
    next operator =>
    obtain ⟨operators, ts₁, operand, rfl, hoperand, rfl, hops⟩ := signs_of_phrase h
    refine ⟨operator :: operators, ts₁, operand, rfl, hoperand, rfl, ?_⟩
    intro t ht
    rcases List.mem_cons.mp ht with rfl | ht
    · rcases hop with hop | hop <;> simp [Token.isPunctuator_iff.mpr hop]
    · exact hops t ht

theorem unary_completes (he : Completes .assignment size expression) :
    Completes .unary (size + 1) (unary expression) := by
  intro n ts e n' more h hsize hmore
  obtain ⟨operators, ts₁, operand, rfl, hoperand, rfl, hops⟩ := signs_of_phrase h
  simp only [List.length_append] at hsize
  have hcall := call_completes he _ _ _ _ more hoperand (by omega) (hmore.tighter rfl)
  -- The call does not start with a sign, so all the signs are taken before it and no more.
  obtain ⟨t, ts', rfl, hstart, hstart'⟩ := hoperand.head
  have hnot (p : Punctuator) (hp : startsOperand (.punctuator p) = false) :
      t.isPunctuator p = false := by
    apply Token.isPunctuator_eq_false
    intro hk
    have hyes := hstart' (by decide)
    rw [hk, hp] at hyes
    cases hyes
  have hlacks : Lacks (fun t => t.isPunctuator .bang || t.isPunctuator .minus)
      (t :: ts' ++ more) := by
    rw [List.cons_append, lacks_cons, hnot .bang rfl, hnot .minus rfl]
    rfl
  unfold unary
  rw [List.append_assoc]
  exact (Takes.acceptWhile hops hlacks).bind (hcall.bind Takes.pure)

theorem factor_completes (he : Completes .assignment size expression) :
    Completes .factor (size + 1) (factor expression) := by
  refine leftAssoc_completes .factor rfl (by simp [Level.operators]) (fun t => ?_)
    (unary_completes he)
  simp [Token.isPunctuator_iff, Level.operators]

theorem term_completes (he : Completes .assignment size expression) :
    Completes .term (size + 1) (term expression) := by
  refine leftAssoc_completes .term rfl (by simp [Level.operators]) (fun t => ?_)
    (factor_completes he)
  simp [Token.isPunctuator_iff, Level.operators]

theorem comparison_completes (he : Completes .assignment size expression) :
    Completes .comparison (size + 1) (comparison expression) := by
  refine leftAssoc_completes .comparison rfl (by simp [Level.operators]) (fun t => ?_)
    (term_completes he)
  simp [isComparison, Token.isPunctuator_iff, Level.operators, or_assoc]

theorem equality_completes (he : Completes .assignment size expression) :
    Completes .equality (size + 1) (equality expression) := by
  refine leftAssoc_completes .equality rfl (by simp [Level.operators]) (fun t => ?_)
    (comparison_completes he)
  simp [Token.isPunctuator_iff, Level.operators]

theorem conjunction_completes (he : Completes .assignment size expression) :
    Completes .conjunction (size + 1) (conjunction expression) := by
  refine leftAssoc_completes .conjunction rfl (by simp [Level.operators]) (fun t => ?_)
    (equality_completes he)
  simp [Token.isKeyword_iff, Level.operators]

theorem disjunction_completes (he : Completes .assignment size expression) :
    Completes .disjunction (size + 1) (disjunction expression) := by
  refine leftAssoc_completes .disjunction rfl (by simp [Level.operators]) (fun t => ?_)
    (conjunction_completes he)
  simp [Token.isKeyword_iff, Level.operators]

theorem phrase_name {name : Token} (hname : name.kind = .identifier) (n : Nat) :
    Phrase .disjunction n [name] (.var n name) (n + 1) := by
  have hcall : Phrase .call n [name] (.var n name) (n + 1) := .tighter rfl (.name hname)
  have hterm : Phrase .term n [name] (.var n name) (n + 1) :=
    .tighter rfl (.tighter rfl (.tighter rfl hcall))
  have hequality : Phrase .equality n [name] (.var n name) (n + 1) :=
    .tighter rfl (.tighter rfl hterm)
  exact .tighter rfl (.tighter rfl hequality)

theorem assignment_completes (he : Completes .assignment size expression) :
    Completes .assignment (size + 1) (assignment expression) := by
  intro n ts e n' more h hsize hmore
  match h with
  | .tighter hl h =>
    cases hl
    have htarget := disjunction_completes he _ _ _ _ more h hsize (hmore.tighter rfl)
    have hlacks : Lacks (·.isPunctuator .equal) more := by
      intro t ht
      have hk := hmore t ht .assignment (Nat.le_refl _)
      rw [Bool.eq_false_iff, ne_eq, Token.isPunctuator_iff]
      simpa [Level.continuations] using hk
    unfold assignment
    exact htarget.bind ((Takes.accept?_none hlacks).bind Takes.pure)
  | .operation _ hop _ _ => cases hop
  | .assignment hname hequals h =>
    next ts value name equals =>
    simp only [List.length_cons] at hsize
    -- The name is taken as an expression first, which ends at the equals sign.
    have hstops : Stops .disjunction (equals :: (ts ++ more)) := by
      intro t ht other hother
      obtain rfl : equals = t := by simpa using ht
      rw [hequals]
      cases other <;> simp [Level.rank] at hother <;> simp [Level.continuations, Level.operators]
    have htarget := disjunction_completes he _ _ _ _ _ (phrase_name hname n)
      (by simp only [List.length_cons, List.length_nil]; omega) hstops
    have hvalue := he _ _ _ _ more h (by omega) hmore
    have hassign : Takes (assignTo expression (.var n name) equals) (ts ++ more) (n + 1)
        (.assign _ name value) more _ := hvalue.bind (Takes.freshId.bind Takes.pure)
    unfold assignment
    exact htarget.bind ((Takes.accept? (Token.isPunctuator_iff.mpr hequals)).bind hassign)

theorem expressionUpTo_completes (depth : Nat) :
    Completes .assignment depth (expressionUpTo depth) := by
  induction depth with
  | zero =>
    intro n ts e n' more h hsize _
    have := h.length_pos
    omega
  | succ depth ih => exact assignment_completes ih

/-- Expressions of any length are taken, since the nesting allowed grows with the tokens left. -/
theorem expression_takes {n n' : Nat} {ts more : List Token} {e : Expr}
    (h : Phrase .assignment n ts e n') (hmore : Stops .assignment more) :
    Takes Rule.expression (ts ++ more) n e more n' := by
  have hlen : ts.length ≤ (ts ++ more).length + 1 := by
    rw [List.length_append]
    omega
  have htakes := expressionUpTo_completes ((ts ++ more).length + 1) n ts e n' more h hlen hmore
  exact htakes.of_apply fun stop reports => rfl

end Expressions

end TreeWalk.Rule
