import TreeWalk.Grammar.Parse

/-! The grammar of programs as derivations from tokens to trees. A derivation also says which
identities its nodes draw: `n` is the first one free before the tokens and `n'` the first one
free after them. -/

namespace TreeWalk.Grammar

/-- Levels of expressions, the loosest one first. -/
inductive Level where
  | assignment
  | disjunction
  | conjunction
  | equality
  | comparison
  | term
  | factor
  | unary
  | call
  | primary
  deriving DecidableEq, Repr

namespace Level

/-- The next level, which is the level of the operands. -/
def tighter? : Level → Option Level
  | assignment => some disjunction
  | disjunction => some conjunction
  | conjunction => some equality
  | equality => some comparison
  | comparison => some term
  | term => some factor
  | factor => some unary
  | unary => some call
  | call => some primary
  | primary => none

/-- What joins two operands at a level. -/
def operators : Level → List Kind
  | disjunction => [.keyword .or_]
  | conjunction => [.keyword .and_]
  | equality => [.punctuator .bangEqual, .punctuator .equalEqual]
  | comparison => [.punctuator .greater, .punctuator .greaterEqual, .punctuator .less,
      .punctuator .lessEqual]
  | term => [.punctuator .minus, .punctuator .plus]
  | factor => [.punctuator .slash, .punctuator .star]
  | _ => []

def join : Level → Expr → Token → Expr → Expr
  | disjunction => .logical
  | conjunction => .logical
  | _ => .binary

end Level

/-- Tokens that are a whole expression by themselves, names apart. -/
inductive Constant : Token → Literal → Prop where
  | number {t : Token} {x : Float} : t.kind = .number x → Constant t (.number x)
  | string {t : Token} {s : String} : t.kind = .string s → Constant t (.string s)
  | true_ {t : Token} : t.kind = .keyword .true_ → Constant t (.bool true)
  | false_ {t : Token} : t.kind = .keyword .false_ → Constant t (.bool false)
  | nil {t : Token} : t.kind = .keyword .nil_ → Constant t .nil

mutual

/-- The tokens `ts` are an expression of a level and `e` is its tree. -/
inductive Phrase : Level → Nat → List Token → Expr → Nat → Prop where
  | tighter {level inner n n' ts e} : level.tighter? = some inner → Phrase inner n ts e n' →
      Phrase level n ts e n'
  | operation {level inner n n₁ n' ts₁ ts₂ left right} {operator : Token} :
      level.tighter? = some inner → operator.kind ∈ level.operators →
      Phrase level n ts₁ left n₁ → Phrase inner n₁ ts₂ right n' →
      Phrase level n (ts₁ ++ operator :: ts₂) (level.join left operator right) n'
  /-- The name draws an identity like any other name, but the node does not keep it. -/
  | assignment {n n' ts value} {name equals : Token} : name.kind = .identifier →
      equals.kind = .punctuator .equal → Phrase .assignment (n + 1) ts value n' →
      Phrase .assignment n (name :: equals :: ts) (.assign n' name value) (n' + 1)
  | unary {n n' ts right} {operator : Token} :
      operator.kind = .punctuator .bang ∨ operator.kind = .punctuator .minus →
      Phrase .unary n ts right n' → Phrase .unary n (operator :: ts) (.unary operator right) n'
  | emptyCall {n n' ts callee} {opening closing : Token} : Phrase .call n ts callee n' →
      opening.kind = .punctuator .leftParen → closing.kind = .punctuator .rightParen →
      Phrase .call n (ts ++ [opening, closing]) (.call callee closing []) n'
  | call {n n₁ n' ts₁ ts₂ callee arguments} {opening closing : Token} :
      Phrase .call n ts₁ callee n₁ → opening.kind = .punctuator .leftParen →
      Arguments n₁ ts₂ arguments n' → arguments.length ≤ 255 →
      closing.kind = .punctuator .rightParen →
      Phrase .call n (ts₁ ++ opening :: (ts₂ ++ [closing])) (.call callee closing arguments) n'
  | constant {n value} {t : Token} : Constant t value → Phrase .primary n [t] (.literal value) n
  | name {n} {name : Token} : name.kind = .identifier →
      Phrase .primary n [name] (.var n name) (n + 1)
  | grouping {n n' ts e} {opening closing : Token} : opening.kind = .punctuator .leftParen →
      Phrase .assignment n ts e n' → closing.kind = .punctuator .rightParen →
      Phrase .primary n (opening :: (ts ++ [closing])) (.grouping e) n'

/-- One or more expressions with commas between them. -/
inductive Arguments : Nat → List Token → List Expr → Nat → Prop where
  | one {n n' ts e} : Phrase .assignment n ts e n' → Arguments n ts [e] n'
  | more {n n₁ n' ts₁ ts₂ es e} {comma : Token} : Arguments n ts₁ es n₁ →
      comma.kind = .punctuator .comma → Phrase .assignment n₁ ts₂ e n' →
      Arguments n (ts₁ ++ comma :: ts₂) (es ++ [e]) n'

end

/-- An expression or nothing. -/
inductive OptionalPhrase : Nat → List Token → Option Expr → Nat → Prop where
  | absent {n} : OptionalPhrase n [] none n
  | present {n n' ts e} : Phrase .assignment n ts e n' → OptionalPhrase n ts (some e) n'

inductive ExpressionStatement : Nat → List Token → Stmt → Nat → Prop where
  | intro {n n' ts e} {semicolon : Token} : Phrase .assignment n ts e n' →
      semicolon.kind = .punctuator .semicolon →
      ExpressionStatement n (ts ++ [semicolon]) (.expression e) n'

inductive VariableDeclaration : Nat → List Token → Stmt → Nat → Prop where
  | bare {n} {keyword name semicolon : Token} : keyword.kind = .keyword .var_ →
      name.kind = .identifier → semicolon.kind = .punctuator .semicolon →
      VariableDeclaration n [keyword, name, semicolon] (.declare name none) n
  | initialized {n n' ts e} {keyword name equals semicolon : Token} :
      keyword.kind = .keyword .var_ → name.kind = .identifier →
      equals.kind = .punctuator .equal → Phrase .assignment n ts e n' →
      semicolon.kind = .punctuator .semicolon →
      VariableDeclaration n (keyword :: name :: equals :: (ts ++ [semicolon]))
        (.declare name (some e)) n'

/-- What stands before the condition of a loop, up to and with the first semicolon. -/
inductive LoopStart : Nat → List Token → Option Stmt → Nat → Prop where
  | absent {n} {semicolon : Token} : semicolon.kind = .punctuator .semicolon →
      LoopStart n [semicolon] none n
  | declaration {n n' ts s} : VariableDeclaration n ts s n' → LoopStart n ts (some s) n'
  | expression {n n' ts s} : ExpressionStatement n ts s n' → LoopStart n ts (some s) n'

/-- What a loop asks before each round. Without a condition it goes on for good. -/
inductive LoopCondition : Option Expr → Expr → Prop where
  | absent : LoopCondition none (.literal (.bool true))
  | present {e} : LoopCondition (some e) e

/-- What a loop does in each round: its body and, where there is one, its increment after that. -/
inductive LoopRound : Option Expr → Stmt → Stmt → Prop where
  | absent {body} : LoopRound none body body
  | present {e body} : LoopRound (some e) body (.block [body, .expression e])

/-- The tree of a loop with the given clauses and body. It is a while loop, in a block behind the
initializer where there is one. -/
inductive LoopTree : Option Stmt → Option Expr → Option Expr → Stmt → Stmt → Prop where
  | bare {condition increment body e round} : LoopCondition condition e →
      LoopRound increment body round → LoopTree none condition increment body (.whileLoop e round)
  | initialized {s condition increment body e round} : LoopCondition condition e →
      LoopRound increment body round →
      LoopTree (some s) condition increment body (.block [s, .whileLoop e round])

theorem loopTree_iff {initializer : Option Stmt} {condition increment : Option Expr}
    {body s : Stmt} : LoopTree initializer condition increment body s ↔
      s = .forLoop initializer condition increment body := by
  constructor
  · intro h
    cases h with
    | bare hcondition hround | initialized hcondition hround =>
      cases hcondition <;> cases hround <;> rfl
  · rintro rfl
    have hcondition : LoopCondition condition (condition.getD (.literal (.bool true))) := by
      cases condition with
      | none => exact .absent
      | some e => exact .present
    cases increment with
    | none =>
      cases initializer with
      | none => exact .bare hcondition .absent
      | some s => exact .initialized hcondition .absent
    | some e =>
      cases initializer with
      | none => exact .bare hcondition .present
      | some s => exact .initialized hcondition .present

/-- One or more names with commas between them. -/
inductive Parameters : List Token → List Token → Prop where
  | one {name : Token} : name.kind = .identifier → Parameters [name] [name]
  | more {ts params} {comma name : Token} : Parameters ts params →
      comma.kind = .punctuator .comma → name.kind = .identifier →
      Parameters (ts ++ [comma, name]) (params ++ [name])

/-- The parameters of a function, perhaps none and not too many. -/
inductive OptionalParameters : List Token → List Token → Prop where
  | absent : OptionalParameters [] []
  | present {ts params} : Parameters ts params → params.length ≤ 255 →
      OptionalParameters ts params

/-- Whether an alternative may belong to any condition before it, or only to the nearest one that
has no alternative yet. -/
inductive Attachment where
  | any
  | nearest
  deriving DecidableEq, Repr

mutual

/-- The tokens `ts` are a statement and `s` is its tree. The truth value tells whether they end in
a condition without an alternative, to which an alternative that follows could belong. -/
inductive Statement (attachment : Attachment) :
    Nat → List Token → Stmt → Bool → Nat → Prop where
  | expression {n n' ts s} : ExpressionStatement n ts s n' → Statement attachment n ts s false n'
  | print {n n' ts e} {keyword semicolon : Token} : keyword.kind = .keyword .print_ →
      Phrase .assignment n ts e n' → semicolon.kind = .punctuator .semicolon →
      Statement attachment n (keyword :: (ts ++ [semicolon])) (.print e) false n'
  | returnFrom {n n' ts value} {keyword semicolon : Token} : keyword.kind = .keyword .return_ →
      OptionalPhrase n ts value n' → semicolon.kind = .punctuator .semicolon →
      Statement attachment n (keyword :: (ts ++ [semicolon])) (.returnFrom keyword value) false n'
  | whileLoop {n n₁ n' ts₁ ts₂ condition body dangling} {keyword opening closing : Token} :
      keyword.kind = .keyword .while_ → opening.kind = .punctuator .leftParen →
      Phrase .assignment n ts₁ condition n₁ → closing.kind = .punctuator .rightParen →
      Statement attachment n₁ ts₂ body dangling n' →
      Statement attachment n (keyword :: opening :: (ts₁ ++ closing :: ts₂))
        (.whileLoop condition body) dangling n'
  | ifThen {n n₁ n' ts₁ ts₂ condition thenBranch dangling} {keyword opening closing : Token} :
      keyword.kind = .keyword .if_ → opening.kind = .punctuator .leftParen →
      Phrase .assignment n ts₁ condition n₁ → closing.kind = .punctuator .rightParen →
      Statement attachment n₁ ts₂ thenBranch dangling n' →
      Statement attachment n (keyword :: opening :: (ts₁ ++ closing :: ts₂))
        (.ifThen condition thenBranch) true n'
  | ifElse {n n₁ n₂ n' ts₁ ts₂ ts₃ condition thenBranch elseBranch dangling₁ dangling₂}
      {keyword opening closing alternative : Token} :
      keyword.kind = .keyword .if_ → opening.kind = .punctuator .leftParen →
      Phrase .assignment n ts₁ condition n₁ → closing.kind = .punctuator .rightParen →
      Statement attachment n₁ ts₂ thenBranch dangling₁ n₂ →
      (attachment = .nearest → dangling₁ = false) → alternative.kind = .keyword .else_ →
      Statement attachment n₂ ts₃ elseBranch dangling₂ n' →
      Statement attachment n
        (keyword :: opening :: (ts₁ ++ closing :: (ts₂ ++ alternative :: ts₃)))
        (.ifElse condition thenBranch elseBranch) dangling₂ n'
  | forLoop {n n₁ n₂ n₃ n' ts₁ ts₂ ts₃ ts₄ initializer condition increment body s dangling}
      {keyword opening semicolon closing : Token} :
      keyword.kind = .keyword .for_ → opening.kind = .punctuator .leftParen →
      LoopStart n ts₁ initializer n₁ → OptionalPhrase n₁ ts₂ condition n₂ →
      semicolon.kind = .punctuator .semicolon → OptionalPhrase n₂ ts₃ increment n₃ →
      closing.kind = .punctuator .rightParen → Statement attachment n₃ ts₄ body dangling n' →
      LoopTree initializer condition increment body s →
      Statement attachment n
        (keyword :: opening :: (ts₁ ++ (ts₂ ++ semicolon :: (ts₃ ++ closing :: ts₄)))) s
        dangling n'
  | block {n n' ts body} {opening closing : Token} : opening.kind = .punctuator .leftBrace →
      Declarations attachment n ts body n' → closing.kind = .punctuator .rightBrace →
      Statement attachment n (opening :: (ts ++ [closing])) (.block body) false n'

inductive Declaration (attachment : Attachment) :
    Nat → List Token → Stmt → Bool → Nat → Prop where
  | function {n n' ts₁ ts₂ params body}
      {keyword name opening closing openingBrace closingBrace : Token} :
      keyword.kind = .keyword .fun_ → name.kind = .identifier →
      opening.kind = .punctuator .leftParen → OptionalParameters ts₁ params →
      closing.kind = .punctuator .rightParen → openingBrace.kind = .punctuator .leftBrace →
      Declarations attachment n ts₂ body n' → closingBrace.kind = .punctuator .rightBrace →
      Declaration attachment n
        (keyword :: name :: opening ::
          (ts₁ ++ closing :: openingBrace :: (ts₂ ++ [closingBrace])))
        (.function name params body) false n'
  | binding {n n' ts s} : VariableDeclaration n ts s n' → Declaration attachment n ts s false n'
  | statement {n n' ts s dangling} : Statement attachment n ts s dangling n' →
      Declaration attachment n ts s dangling n'

/-- A program, or the inside of a block. -/
inductive Declarations (attachment : Attachment) :
    Nat → List Token → List Stmt → Nat → Prop where
  | nil {n} : Declarations attachment n [] [] n
  | cons {n n₁ n' ts₁ ts₂ s ss dangling} : Declaration attachment n ts₁ s dangling n₁ →
      Declarations attachment n₁ ts₂ ss n' → Declarations attachment n (ts₁ ++ ts₂) (s :: ss) n'

end

end TreeWalk.Grammar
