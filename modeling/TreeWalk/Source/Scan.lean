import TreeWalk.Diagnostic
import TreeWalk.Source.Piece

/-!
The tokens and lexical errors of a source text, each with its line, all at once or one by one.
-/

namespace TreeWalk

/-- What scanning yields at one place: a token, or a report of what is none. -/
abbrev ScanItem := Except Diagnostic Token

/-- What a piece yields when it ends on the given line; blanks and comments yield nothing. -/
def Piece.item? (line : Nat) : Piece → Option ScanItem
  | blank _ => none
  | comment _ => none
  | token kind lexeme => some (.ok ⟨kind, String.ofList lexeme, line⟩)
  | openString _ => some (.error (.lexical line .unterminatedString))
  | stray c => some (.error (.lexical line (.strayCharacter c)))

namespace Source

/-- The items of pieces that start on the given line, and the end mark after them. -/
def itemsFrom (line : Nat) : List Piece → List ScanItem
  | [] => [.ok (Token.endMark line)]
  | p :: ps => (p.item? (line + p.newlines)).toList ++ itemsFrom (line + p.newlines) ps

def items (source : String) : List ScanItem :=
  itemsFrom 1 (Piece.split source.toList)

def tokenOf? : ScanItem → Option Token
  | .ok t => some t
  | .error _ => none

def errorOf? : ScanItem → Option Diagnostic
  | .ok _ => none
  | .error d => some d

/-- The tokens of a source, ending with the end mark. -/
def tokens (source : String) : List Token :=
  (items source).filterMap tokenOf?

def errors (source : String) : List Diagnostic :=
  (items source).filterMap errorOf?

end Source

/-- A source in the course of being scanned item by item. -/
structure Scanner where
  pieces : List Piece
  line : Nat
  ended : Bool

namespace Scanner

def ofSource (source : String) : Scanner :=
  ⟨Piece.split source.toList, 1, false⟩

/-- Passes over pieces without an item to the next one that has one, or to the end mark. -/
def advance (line : Nat) : List Piece → ScanItem × Scanner
  | [] => (.ok (Token.endMark line), ⟨[], line, true⟩)
  | p :: ps =>
    match p.item? (line + p.newlines) with
    | some item => (item, ⟨ps, line + p.newlines, false⟩)
    | none => advance (line + p.newlines) ps

/-- The next item. The end mark comes once, and nothing after it. -/
def next (s : Scanner) : Option ScanItem × Scanner :=
  if s.ended then (none, s)
  else
    let (item, rest) := advance s.line s.pieces
    (some item, rest)

end Scanner

end TreeWalk
