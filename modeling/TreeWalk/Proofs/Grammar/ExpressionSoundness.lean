import TreeWalk.Proofs.Grammar.Clean
import TreeWalk.Proofs.Grammar.Derivation

/-! What the rules for expressions take in clean steps is what the grammar derives. -/

namespace TreeWalk.Rule
open Grammar

/-- Every clean step of a rule takes tokens that a derivation leads from to the result. -/
def Sound {α : Type} (derives : Nat → List Token → α → Nat → Prop) (r : Rule α) : Prop :=
  ∀ s a s', Clean r s a s' → ∃ ts, s.rest = ts ++ s'.rest ∧ derives s.nextId ts a s'.nextId

/-- What a rule takes and the punctuator that has to close it. -/
theorem closing_sound {α β : Type} {derives : Nat → List Token → α → Nat → Prop} {r : Rule α}
    [Grows r] (hr : Sound derives r) {k : Punctuator} {what : Expectation} {f : α → β}
    {s s' : Cursor} {b : β} (h : Clean (do
      let a ← r
      discard (expect (·.isPunctuator k) what)
      return f a) s b s') :
    ∃ ts closing a, s.rest = ts ++ closing :: s'.rest ∧ derives s.nextId ts a s'.nextId ∧
      closing.kind = .punctuator k ∧ f a = b := by
  obtain ⟨a, s₁, h₁, h₂⟩ := h.of_bind
  obtain ⟨_, s₂, h₃, h₄⟩ := h₂.of_bind
  obtain ⟨rfl, rfl⟩ := h₄.of_pure
  obtain ⟨ts, hr₁, ha⟩ := hr _ _ _ h₁
  obtain ⟨closing, h₃⟩ := h₃.of_discard
  obtain ⟨hclosing, hr₂, hn⟩ := h₃.of_expect
  rw [← hn] at ha
  exact ⟨ts, closing, a, by rw [hr₁, hr₂], ha, Token.isPunctuator_iff.mp hclosing, rfl⟩

section Loops

variable {α : Type}

instance leftAssocFrom_grows (build : Expr → Token → Expr → Expr) (isOperator : Token → Bool)
    (operand : Rule Expr) [Grows operand] (bound : Nat) (left : Expr) :
    Grows (leftAssocFrom build isOperator operand bound left) := by
  induction bound generalizing left with
  | zero =>
    rw [leftAssocFrom]
    infer_instance
  | succ bound ih =>
    rw [leftAssocFrom]
    refine Grows.bind inferInstance fun o => ?_
    cases o <;> infer_instance

instance (build : Expr → Token → Expr → Expr) (isOperator : Token → Bool)
    (operand : Rule Expr) [Grows operand] : Grows (leftAssoc build isOperator operand) := by
  unfold leftAssoc
  infer_instance

instance moreItems_grows (tooMany : SyntacticCause) (item : Rule α) [Grows item] (bound : Nat)
    (items : List α) : Grows (moreItems tooMany item bound items) := by
  induction bound generalizing items with
  | zero =>
    rw [moreItems]
    infer_instance
  | succ bound ih =>
    rw [moreItems]
    infer_instance

instance (tooMany : SyntacticCause) (item : Rule α) [Grows item] :
    Grows (commaSeparated tooMany item) := by
  unfold commaSeparated
  infer_instance

end Loops

section Expressions

variable {operand expression : Rule Expr} {level inner : Level} {isOperator : Token → Bool}

theorem leftAssocFrom_sound [Grows operand] (hl : level.tighter? = some inner)
    (hop : ∀ t, isOperator t = true → t.kind ∈ level.operators)
    (ho : Sound (Phrase inner) operand) {bound n : Nat} {left e : Expr} {ts₀ : List Token}
    {s s' : Cursor} (hleft : Phrase level n ts₀ left s.nextId)
    (h : Clean (leftAssocFrom level.join isOperator operand bound left) s e s') :
    ∃ ts, s.rest = ts ++ s'.rest ∧ Phrase level n (ts₀ ++ ts) e s'.nextId := by
  induction bound generalizing left ts₀ s with
  | zero =>
    rw [leftAssocFrom] at h
    obtain ⟨rfl, rfl⟩ := h.of_pure
    exact ⟨[], rfl, by simpa using hleft⟩
  | succ bound ih =>
    rw [leftAssocFrom] at h
    obtain ⟨o, s₁, h₁, h₂⟩ := h.of_bind_of_grows fun o => by cases o <;> infer_instance
    rcases h₁.of_accept? with ⟨operator, rfl, hp, hr, hn⟩ | ⟨rfl, rfl⟩
    · obtain ⟨right, s₂, h₂, h₃⟩ := h₂.of_bind
      obtain ⟨ts₂, hr₂, hright⟩ := ho _ _ _ h₂
      rw [← hn] at hleft
      have hjoined := Phrase.operation hl (hop _ hp) hleft hright
      obtain ⟨ts, hr₃, he⟩ := ih hjoined h₃
      exact ⟨operator :: ts₂ ++ ts, by simp [hr, hr₂, hr₃], by simpa using he⟩
    · obtain ⟨rfl, rfl⟩ := h₂.of_pure
      exact ⟨[], rfl, by simpa using hleft⟩

theorem leftAssoc_sound [Grows operand] (level : Level) (hl : level.tighter? = some inner)
    (hop : ∀ t, isOperator t = true → t.kind ∈ level.operators)
    (ho : Sound (Phrase inner) operand) :
    Sound (Phrase level) (leftAssoc level.join isOperator operand) := by
  intro s e s' h
  unfold leftAssoc at h
  obtain ⟨left, s₁, h₁, h₂⟩ := h.of_bind
  obtain ⟨_, _, h₃, h₄⟩ := h₂.of_bind
  obtain ⟨rfl, rfl⟩ := h₃.of_get
  obtain ⟨ts₁, hr₁, hleft⟩ := ho _ _ _ h₁
  obtain ⟨ts₂, hr₂, he⟩ := leftAssocFrom_sound hl hop ho (.tighter hl hleft) h₄
  exact ⟨ts₁ ++ ts₂, by simp [hr₁, hr₂], he⟩

/-- The bound of 255 items is kept because every item past it is complained about. -/
theorem moreItems_sound {α : Type} {tooMany : SyntacticCause} {item : Rule α} [Grows item]
    {derives : Nat → List Token → α → Nat → Prop} {list : Nat → List Token → List α → Nat → Prop}
    (hmore : ∀ {n ts₁ items n₁ comma ts₂ a n'}, list n ts₁ items n₁ →
      comma.kind = .punctuator .comma → derives n₁ ts₂ a n' →
      list n (ts₁ ++ comma :: ts₂) (items ++ [a]) n')
    (hi : Sound derives item) {bound n : Nat} {items all : List α} {ts₀ : List Token}
    {s s' : Cursor} (hitems : list n ts₀ items s.nextId) (hlen : items.length ≤ 255)
    (h : Clean (moreItems tooMany item bound items) s all s') :
    ∃ ts, s.rest = ts ++ s'.rest ∧ list n (ts₀ ++ ts) all s'.nextId ∧ all.length ≤ 255 := by
  induction bound generalizing items ts₀ s with
  | zero =>
    rw [moreItems] at h
    obtain ⟨rfl, rfl⟩ := h.of_pure
    exact ⟨[], rfl, by simpa using hitems, hlen⟩
  | succ bound ih =>
    rw [moreItems] at h
    obtain ⟨yes, s₁, h₁, h₂⟩ := h.of_bind
    rcases h₁.of_accepts with ⟨rfl, comma, hcomma, hr, hn⟩ | ⟨rfl, rfl⟩
    · simp only [↓reduceIte] at h₂
      split at h₂
      · obtain ⟨_, _, h₃, _⟩ := h₂.of_bind
        exact absurd h₃ Clean.not_complain
      · next hroom =>
        obtain ⟨a, s₂, h₃, h₄⟩ := h₂.of_bind
        obtain ⟨ts₁, hr₁, ha⟩ := hi _ _ _ h₃
        rw [← hn] at hitems
        have hlist := hmore hitems (Token.isPunctuator_iff.mp hcomma) ha
        have hlen' : (items ++ [a]).length ≤ 255 := by
          unfold maxArity at hroom
          simp only [List.length_append, List.length_singleton]
          omega
        obtain ⟨ts₂, hr₂, hall, hle⟩ := ih hlist hlen' h₄
        exact ⟨comma :: ts₁ ++ ts₂, by simp [hr, hr₁, hr₂], by simpa using hall, hle⟩
    · simp only [Bool.false_eq_true, ↓reduceIte] at h₂
      obtain ⟨rfl, rfl⟩ := h₂.of_pure
      exact ⟨[], rfl, by simpa using hitems, hlen⟩

theorem commaSeparated_sound {α : Type} {tooMany : SyntacticCause} {item : Rule α} [Grows item]
    {derives : Nat → List Token → α → Nat → Prop} (list : Nat → List Token → List α → Nat → Prop)
    (hone : ∀ {n ts a n'}, derives n ts a n' → list n ts [a] n')
    (hmore : ∀ {n ts₁ items n₁ comma ts₂ a n'}, list n ts₁ items n₁ →
      comma.kind = .punctuator .comma → derives n₁ ts₂ a n' →
      list n (ts₁ ++ comma :: ts₂) (items ++ [a]) n')
    (hi : Sound derives item) :
    Sound (fun n ts all n' => list n ts all n' ∧ all.length ≤ 255) (commaSeparated tooMany item) := by
  intro s all s' h
  unfold commaSeparated at h
  obtain ⟨first, s₁, h₁, h₂⟩ := h.of_bind
  obtain ⟨_, _, h₃, h₄⟩ := h₂.of_bind
  obtain ⟨rfl, rfl⟩ := h₃.of_get
  obtain ⟨ts₁, hr₁, hfirst⟩ := hi _ _ _ h₁
  obtain ⟨ts₂, hr₂, hall, hle⟩ := moreItems_sound hmore hi (hone hfirst) (by simp) h₄
  exact ⟨ts₁ ++ ts₂, by simp [hr₁, hr₂], hall, hle⟩

theorem constant?_sound {t : Token} {value : Literal} (h : t.constant? = some value) :
    Constant t value := by
  unfold Token.constant? at h
  split at h
  · next hk =>
    cases h
    exact .false_ hk
  · next hk =>
    cases h
    exact .true_ hk
  · next hk =>
    cases h
    exact .nil hk
  · next k _ _ _ =>
    cases hk : t.kind with
    | string text =>
      simp only [hk, Kind.literal?, Option.some.injEq] at h
      exact h ▸ .string hk
    | number x =>
      simp only [hk, Kind.literal?, Option.some.injEq] at h
      exact h ▸ .number hk
    | _ => simp [hk, Kind.literal?] at h

instance [Grows expression] : Grows (primary expression) := by
  unfold primary
  refine Grows.bind inferInstance fun s => ?_
  dsimp only
  split <;> infer_instance

/-- No end mark can start a primary, so a primary takes the token it looks at. -/
theorem rest_of_head {s : Cursor} (hs : s.stop.isEnd = true) (h : s.head.kind ≠ .eof) :
    s.rest = s.head :: s.rest.tail := by
  unfold Cursor.head at h ⊢
  cases hr : s.rest with
  | nil =>
    rw [hr] at h
    exact absurd (Token.isEnd_iff.mp hs) h
  | cons t ts => rfl

theorem primary_sound [Grows expression] (he : Sound (Phrase .assignment) expression) :
    Sound (Phrase .primary) (primary expression) := by
  intro s e s' h
  unfold primary at h
  obtain ⟨_, s, h₁, h₂⟩ := h.of_bind_of_grows fun s => by dsimp only; split <;> infer_instance
  obtain ⟨rfl, rfl⟩ := h₁.of_get
  dsimp only at h₂
  split at h₂
  · next value hvalue =>
    have hc := constant?_sound hvalue
    obtain ⟨_, s₁, h₃, h₄⟩ := h₂.of_bind
    obtain ⟨rfl, rfl⟩ := h₄.of_pure
    obtain ⟨hr, hn⟩ := h₃.of_skip
    have hk : s.head.kind ≠ .eof := by cases hc <;> simp_all
    refine ⟨[s.head], ?_, ?_⟩
    · rw [rest_of_head h.ended hk, hr]
      rfl
    · rw [hn]
      exact .constant hc
  · split at h₂
    · next hname =>
      have hk := Token.isIdentifier_iff.mp hname
      obtain ⟨_, s₁, h₃, h₄⟩ := h₂.of_bind
      obtain ⟨n, s₂, h₅, h₆⟩ := h₄.of_bind
      obtain ⟨rfl, rfl⟩ := h₆.of_pure
      obtain ⟨hr, hn⟩ := h₃.of_skip
      obtain ⟨rfl, hr₂, hn₂⟩ := h₅.of_freshId
      refine ⟨[s.head], ?_, ?_⟩
      · rw [rest_of_head h.ended (by simp [hk]), hr₂, hr]
        rfl
      · rw [hn₂, hn]
        exact .name hk
    · split at h₂
      · next hparen =>
        have hk := Token.isPunctuator_iff.mp hparen
        obtain ⟨_, s₁, h₃, h₄⟩ := h₂.of_bind
        obtain ⟨hr, hn⟩ := h₃.of_skip
        obtain ⟨ts, closing, inner, hr₂, hinner, hclosing, rfl⟩ := closing_sound he h₄
        refine ⟨s.head :: (ts ++ [closing]), ?_, ?_⟩
        · rw [rest_of_head h.ended (by simp [hk]), ← hr, hr₂]
          simp
        · rw [← hn]
          exact .grouping hk hinner hclosing
      · exact absurd h₂ Clean.not_fail

instance [Grows expression] : Grows (arguments expression) := by
  unfold arguments
  infer_instance

theorem arguments_sound [Grows expression] (he : Sound (Phrase .assignment) expression) :
    Sound (fun n ts (result : List Expr × Token) n' =>
      ∃ ts', ts = ts' ++ [result.2] ∧ result.2.kind = .punctuator .rightParen ∧
        (ts' = [] ∧ result.1 = [] ∧ n' = n ∨
          Arguments n ts' result.1 n' ∧ result.1.length ≤ 255)) (arguments expression) := by
  intro s result s' h
  unfold arguments at h
  obtain ⟨yes, s₁, h₁, h₂⟩ := h.of_bind
  have hs := h₁.of_sees
  subst hs
  dsimp only at h₂
  split at h₂
  · obtain ⟨_, s₂, h₃, h₄⟩ := h₂.of_bind
    obtain ⟨closing, s₃, h₅, h₆⟩ := h₄.of_bind
    obtain ⟨rfl, rfl⟩ := h₃.of_pure
    obtain ⟨rfl, rfl⟩ := h₆.of_pure
    obtain ⟨hclosing, hr, hn⟩ := h₅.of_expect
    exact ⟨[closing], hr, [], rfl, Token.isPunctuator_iff.mp hclosing, Or.inl ⟨rfl, rfl, hn⟩⟩
  · obtain ⟨args, s₂, h₃, h₄⟩ := h₂.of_bind
    obtain ⟨closing, s₃, h₅, h₆⟩ := h₄.of_bind
    obtain ⟨rfl, rfl⟩ := h₆.of_pure
    obtain ⟨hclosing, hr, hn⟩ := h₅.of_expect
    obtain ⟨ts, hr₁, hargs, hlen⟩ :=
      commaSeparated_sound Arguments .one .more he _ _ _ h₃
    rw [← hn] at hargs
    exact ⟨ts ++ [closing], by simp [hr₁, hr], ts, rfl, Token.isPunctuator_iff.mp hclosing,
      Or.inr ⟨hargs, hlen⟩⟩

instance callsFrom_grows [Grows expression] (bound : Nat) (callee : Expr) :
    Grows (callsFrom expression bound callee) := by
  induction bound generalizing callee with
  | zero =>
    rw [callsFrom]
    infer_instance
  | succ bound ih =>
    rw [callsFrom]
    infer_instance

instance [Grows expression] : Grows (call expression) := by
  unfold call
  infer_instance

theorem callsFrom_sound [Grows expression] (he : Sound (Phrase .assignment) expression)
    {bound n : Nat} {callee e : Expr} {ts₀ : List Token} {s s' : Cursor}
    (hcallee : Phrase .call n ts₀ callee s.nextId)
    (h : Clean (callsFrom expression bound callee) s e s') :
    ∃ ts, s.rest = ts ++ s'.rest ∧ Phrase .call n (ts₀ ++ ts) e s'.nextId := by
  induction bound generalizing callee ts₀ s with
  | zero =>
    rw [callsFrom] at h
    obtain ⟨rfl, rfl⟩ := h.of_pure
    exact ⟨[], rfl, by simpa using hcallee⟩
  | succ bound ih =>
    rw [callsFrom] at h
    obtain ⟨yes, s₁, h₁, h₂⟩ := h.of_bind
    rcases h₁.of_accepts with ⟨rfl, opening, hopening, hr, hn⟩ | ⟨rfl, rfl⟩
    · simp only [↓reduceIte] at h₂
      obtain ⟨⟨args, closing⟩, s₂, h₃, h₄⟩ := h₂.of_bind
      obtain ⟨ts₁, hr₁, ts, rfl, hclosing, hargs⟩ := arguments_sound he _ _ _ h₃
      rw [← hn] at hcallee
      have hkind := Token.isPunctuator_iff.mp hopening
      have hcall : Phrase .call n (ts₀ ++ opening :: (ts ++ [closing]))
          (.call callee closing args) s₂.nextId := by
        rcases hargs with ⟨rfl, rfl, hn₂⟩ | ⟨hargs, hlen⟩
        · rw [hn₂]
          exact .emptyCall hcallee hkind hclosing
        · exact .call hcallee hkind hargs hlen hclosing
      obtain ⟨ts₂, hr₂, he₂⟩ := ih hcall h₄
      exact ⟨opening :: (ts ++ [closing]) ++ ts₂, by simp [hr, hr₁, hr₂], by simpa using he₂⟩
    · simp only [Bool.false_eq_true, ↓reduceIte] at h₂
      obtain ⟨rfl, rfl⟩ := h₂.of_pure
      exact ⟨[], rfl, by simpa using hcallee⟩

theorem call_sound [Grows expression] (he : Sound (Phrase .assignment) expression) :
    Sound (Phrase .call) (call expression) := by
  intro s e s' h
  unfold call at h
  obtain ⟨callee, s₁, h₁, h₂⟩ := h.of_bind
  obtain ⟨_, _, h₃, h₄⟩ := h₂.of_bind
  obtain ⟨rfl, rfl⟩ := h₃.of_get
  obtain ⟨ts₁, hr₁, hcallee⟩ := primary_sound he _ _ _ h₁
  obtain ⟨ts₂, hr₂, hcalls⟩ := callsFrom_sound he (.tighter rfl hcallee) h₄
  exact ⟨ts₁ ++ ts₂, by simp [hr₁, hr₂], hcalls⟩

instance [Grows expression] : Grows (unary expression) := by
  unfold unary
  infer_instance

theorem phrase_signs {operators ts : List Token} {n n' : Nat} {operand : Expr}
    (hops : ∀ t ∈ operators, t.kind = .punctuator .bang ∨ t.kind = .punctuator .minus)
    (h : Phrase .unary n ts operand n') :
    Phrase .unary n (operators ++ ts) (operators.foldr .unary operand) n' := by
  induction operators with
  | nil => exact h
  | cons operator operators ih =>
    simp only [List.mem_cons, forall_eq_or_imp] at hops
    exact .unary hops.1 (ih hops.2)

theorem unary_sound [Grows expression] (he : Sound (Phrase .assignment) expression) :
    Sound (Phrase .unary) (unary expression) := by
  intro s e s' h
  unfold unary at h
  obtain ⟨operators, s₁, h₁, h₂⟩ := h.of_bind
  obtain ⟨operand, s₂, h₃, h₄⟩ := h₂.of_bind
  obtain ⟨rfl, rfl⟩ := h₄.of_pure
  obtain ⟨hops, hr, hn⟩ := h₁.of_acceptWhile
  obtain ⟨ts, hr₂, hoperand⟩ := call_sound he _ _ _ h₃
  refine ⟨operators ++ ts, by simp [hr, hr₂], ?_⟩
  rw [← hn]
  refine phrase_signs (fun t ht => ?_) (.tighter rfl hoperand)
  have := hops t ht
  simpa [Token.isPunctuator_iff] using this

instance [Grows expression] : Grows (factor expression) := by
  unfold factor
  infer_instance

instance [Grows expression] : Grows (term expression) := by
  unfold term
  infer_instance

instance [Grows expression] : Grows (comparison expression) := by
  unfold comparison
  infer_instance

instance [Grows expression] : Grows (equality expression) := by
  unfold equality
  infer_instance

instance [Grows expression] : Grows (conjunction expression) := by
  unfold conjunction
  infer_instance

instance [Grows expression] : Grows (disjunction expression) := by
  unfold disjunction
  infer_instance

theorem factor_sound [Grows expression] (he : Sound (Phrase .assignment) expression) :
    Sound (Phrase .factor) (factor expression) := by
  refine leftAssoc_sound .factor rfl (fun t ht => ?_) (unary_sound he)
  simpa [Token.isPunctuator_iff, Level.operators] using ht

theorem term_sound [Grows expression] (he : Sound (Phrase .assignment) expression) :
    Sound (Phrase .term) (term expression) := by
  refine leftAssoc_sound .term rfl (fun t ht => ?_) (factor_sound he)
  simpa [Token.isPunctuator_iff, Level.operators] using ht

theorem comparison_sound [Grows expression] (he : Sound (Phrase .assignment) expression) :
    Sound (Phrase .comparison) (comparison expression) := by
  refine leftAssoc_sound .comparison rfl (fun t ht => ?_) (term_sound he)
  simpa [isComparison, Token.isPunctuator_iff, Level.operators, or_assoc] using ht

theorem equality_sound [Grows expression] (he : Sound (Phrase .assignment) expression) :
    Sound (Phrase .equality) (equality expression) := by
  refine leftAssoc_sound .equality rfl (fun t ht => ?_) (comparison_sound he)
  simpa [Token.isPunctuator_iff, Level.operators] using ht

theorem conjunction_sound [Grows expression] (he : Sound (Phrase .assignment) expression) :
    Sound (Phrase .conjunction) (conjunction expression) := by
  refine leftAssoc_sound .conjunction rfl (fun t ht => ?_) (equality_sound he)
  simpa [Token.isKeyword_iff, Level.operators] using ht

theorem disjunction_sound [Grows expression] (he : Sound (Phrase .assignment) expression) :
    Sound (Phrase .disjunction) (disjunction expression) := by
  refine leftAssoc_sound .disjunction rfl (fun t ht => ?_) (conjunction_sound he)
  simpa [Token.isKeyword_iff, Level.operators] using ht

instance [Grows expression] (target : Expr) (equals : Token) :
    Grows (assignTo expression target equals) := by
  unfold assignTo
  refine Grows.bind inferInstance fun value => ?_
  cases target <;> infer_instance

instance [Grows expression] : Grows (assignment expression) := by
  unfold assignment
  refine Grows.bind inferInstance fun target => Grows.bind inferInstance fun o => ?_
  cases o <;> infer_instance

theorem join_ne_var {left right : Expr} {operator : Token} {id : NodeId} {name : Token} :
    level.join left operator right ≠ .var id name := by
  cases level <;> simp [Level.join]

/-- A name by itself is the only expression whose tree is that name. -/
theorem phrase_var {level : Level} {n n' : Nat} {ts : List Token} {e : Expr}
    (h : Phrase level n ts e n') : ∀ {id : NodeId} {name : Token}, e = .var id name →
      ts = [name] ∧ name.kind = .identifier ∧ n' = n + 1 := by
  intro id name he
  match h with
  | .tighter _ h => exact phrase_var h he
  | .operation .. => exact absurd he join_ne_var
  | .assignment .. | .unary .. | .emptyCall .. | .call .. | .constant .. | .grouping .. => cases he
  | .name hk =>
    cases he
    exact ⟨rfl, hk, rfl⟩

theorem assignTo_sound [Grows expression] (he : Sound (Phrase .assignment) expression)
    {target e : Expr} {equals : Token} {n : Nat} {ts₀ : List Token} {s s' : Cursor}
    (htarget : Phrase .disjunction n ts₀ target s.nextId)
    (hequals : equals.kind = .punctuator .equal)
    (h : Clean (assignTo expression target equals) s e s') :
    ∃ ts, s.rest = ts ++ s'.rest ∧ Phrase .assignment n (ts₀ ++ equals :: ts) e s'.nextId := by
  unfold assignTo at h
  obtain ⟨value, s₁, h₁, h₂⟩ := h.of_bind_of_grows fun value => by cases target <;> infer_instance
  obtain ⟨ts, hr, hvalue⟩ := he _ _ _ h₁
  split at h₂
  · next id name =>
    obtain ⟨rfl, hname, hn⟩ := phrase_var htarget rfl
    obtain ⟨n', s₂, h₃, h₄⟩ := h₂.of_bind
    obtain ⟨rfl, rfl⟩ := h₄.of_pure
    obtain ⟨rfl, hr₂, hn₂⟩ := h₃.of_freshId
    rw [hn] at hvalue
    refine ⟨ts, by rw [hr, hr₂], ?_⟩
    rw [hn₂]
    exact .assignment hname hequals hvalue
  · obtain ⟨_, _, h₃, _⟩ := h₂.of_bind
    exact absurd h₃ Clean.not_report

theorem assignment_sound [Grows expression] (he : Sound (Phrase .assignment) expression) :
    Sound (Phrase .assignment) (assignment expression) := by
  intro s e s' h
  unfold assignment at h
  obtain ⟨target, s₁, h₁, h₂⟩ := h.of_bind_of_grows fun target =>
    Grows.bind inferInstance fun o => by cases o <;> infer_instance
  obtain ⟨o, s₂, h₃, h₄⟩ := h₂.of_bind_of_grows fun o => by cases o <;> infer_instance
  obtain ⟨ts₁, hr₁, htarget⟩ := disjunction_sound he _ _ _ h₁
  rcases h₃.of_accept? with ⟨equals, rfl, hequals, hr₂, hn₂⟩ | ⟨rfl, rfl⟩
  · rw [← hn₂] at htarget
    obtain ⟨ts₂, hr₃, hassign⟩ :=
      assignTo_sound he htarget (Token.isPunctuator_iff.mp hequals) h₄
    exact ⟨ts₁ ++ equals :: ts₂, by simp [hr₁, hr₂, hr₃], hassign⟩
  · obtain ⟨rfl, rfl⟩ := h₄.of_pure
    exact ⟨ts₁, hr₁, .tighter rfl htarget⟩

instance expressionUpTo_grows (depth : Nat) : Grows (expressionUpTo depth) := by
  induction depth with
  | zero => exact inferInstanceAs (Grows (fail (.expected .expression)))
  | succ depth ih => exact inferInstanceAs (Grows (assignment (expressionUpTo depth)))

theorem expressionUpTo_sound (depth : Nat) : Sound (Phrase .assignment) (expressionUpTo depth) := by
  induction depth with
  | zero =>
    intro s e s' h
    exact absurd (show Clean (fail (.expected .expression)) s e s' from h) Clean.not_fail
  | succ depth ih => exact assignment_sound ih

instance : Grows Rule.expression :=
  Grows.of_apply fun s => ⟨expressionUpTo (s.rest.length + 1), rfl, inferInstance⟩

theorem expression_sound : Sound (Phrase .assignment) Rule.expression := by
  intro s e s' h
  exact expressionUpTo_sound (s.rest.length + 1) s e s' (h.congr rfl)

end Expressions

end TreeWalk.Rule
