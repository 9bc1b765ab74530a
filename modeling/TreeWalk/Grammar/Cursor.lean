import TreeWalk.Diagnostic
import TreeWalk.Syntax.Basic

/-!
The state of parsing and its elementary steps. A rule either yields a result or gives up with a
report; in both cases the tokens it took stay taken.
-/

namespace TreeWalk

/-- The tokens still to be parsed, the end mark after them, the reports made without giving up,
and the next node identity. -/
structure Cursor where
  rest : List Token
  stop : Token
  reports : List Diagnostic
  nextId : NodeId

abbrev Rule := ExceptT Diagnostic (StateM Cursor)

namespace Cursor

/-- The end mark of a token list: its first one, or else one on the line of the last token. -/
def stopOf (tokens : List Token) : Token :=
  (tokens.find? Token.isEnd).getD (Token.endMark ((tokens.getLast?.map Token.line).getD 1))

/-- Everything from the first end mark on is left out. -/
def ofTokens (tokens : List Token) (nextId : NodeId) : Cursor :=
  ⟨tokens.takeWhile (!·.isEnd), stopOf tokens, [], nextId⟩

/-- The token to be parsed next, possibly the end mark. -/
def head (s : Cursor) : Token :=
  s.rest.headD s.stop

def atEnd (s : Cursor) : Bool :=
  s.rest.isEmpty

def report (d : Diagnostic) (s : Cursor) : Cursor :=
  { s with reports := s.reports ++ [d] }

end Cursor

namespace Rule

theorem pure_apply {α : Type} (a : α) (s : Cursor) : (pure a : Rule α) s = (.ok a, s) :=
  rfl

theorem bind_apply {α β : Type} (r : Rule α) (f : α → Rule β) (s : Cursor) :
    (r >>= f) s = match r s with
      | (.ok a, s') => f a s'
      | (.error d, s') => (.error d, s') := by
  change ExceptT.bindCont f (r s).1 (r s).2 = _
  cases r s with
  | mk result s' => cases result <;> rfl

/-- Gives up, reporting the next token. -/
def fail {α : Type} (cause : SyntacticCause) : Rule α := do
  throw (.syntactic (← get).head cause)

/-- Reports the next token and goes on. -/
def complain (cause : SyntacticCause) : Rule Unit :=
  modify fun s => s.report (.syntactic s.head cause)

/-- Passes over the next token. -/
def skip : Rule Unit :=
  modify fun s => { s with rest := s.rest.tail }

/-- Whether the next token is of a kind; the end mark never is. -/
def sees (p : Token → Bool) : Rule Bool := do
  return (← get).rest.head?.any p

/-- Takes the next token if it is of a kind. -/
def accept? (p : Token → Bool) : Rule (Option Token) := do
  match (← get).rest with
  | [] => return none
  | t :: ts =>
    if p t then
      modify fun s => { s with rest := ts }
      return some t
    else return none

theorem accept?_apply (p : Token → Bool) (s : Cursor) :
    accept? p s = match s.rest with
      | t :: ts => if p t then (.ok (some t), { s with rest := ts }) else (.ok none, s)
      | [] => (.ok none, s) := by
  change ((match s.rest with
    | [] => return none
    | t :: ts => if p t then do
        modify fun s => { s with rest := ts }
        return some t
      else return none) : Rule (Option Token)) s = _
  cases s.rest with
  | nil => rfl
  | cons t ts => dsimp only; split <;> rfl

def accepts (p : Token → Bool) : Rule Bool := do
  return (← accept? p).isSome

/-- Takes the next token, which has to be of a kind. -/
def expect (p : Token → Bool) (what : Expectation) : Rule Token := do
  match ← accept? p with
  | some t => return t
  | none => fail (.expected what)

/-- Takes the tokens of a kind that come next. -/
def acceptWhile (p : Token → Bool) : Rule (List Token) := do
  let rest := (← get).rest
  modify fun s => { s with rest := rest.dropWhile p }
  return rest.takeWhile p

def freshId : Rule NodeId := do
  let id := (← get).nextId
  modify fun s => { s with nextId := id + 1 }
  return id

/-- How many arguments a call and how many parameters a function may have. -/
def maxArity : Nat := 255

/-- The items after the first of a list with commas. Each one past the limit is complained about.
The bound is the number of tokens left, of which every round takes a comma. -/
def moreItems {α : Type} (tooMany : SyntacticCause) (item : Rule α) :
    Nat → List α → Rule (List α)
  | 0, items => return items
  | bound + 1, items => do
    if ← accepts (·.isPunctuator .comma) then
      if maxArity ≤ items.length then complain tooMany
      moreItems tooMany item bound (items ++ [← item])
    else return items

/-- One or more items with commas between them. -/
def commaSeparated {α : Type} (tooMany : SyntacticCause) (item : Rule α) : Rule (List α) := do
  let first ← item
  moreItems tooMany item (← get).rest.length [first]

end Rule

end TreeWalk
