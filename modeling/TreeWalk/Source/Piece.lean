import TreeWalk.Number.Decimal
import TreeWalk.Token.Basic

/-!
Source text cut into pieces: blanks, comments, tokens, and what belongs to none of them.
-/

namespace TreeWalk

inductive Piece where
  | blank (c : Char)
  /-- The characters after the two slashes, up to the end of the line. -/
  | comment (body : List Char)
  | token (kind : Kind) (lexeme : List Char)
  /-- The rest of a source whose last string is never closed, without the opening quote. -/
  | openString (body : List Char)
  | stray (c : Char)

namespace Piece

/-- The characters a piece covers. -/
def chars : Piece → List Char
  | blank c => [c]
  | comment body => '/' :: '/' :: body
  | token _ lexeme => lexeme
  | openString body => '"' :: body
  | stray c => [c]

def newlines (p : Piece) : Nat :=
  p.chars.count '\n'

def isBlank (c : Char) : Bool :=
  c = ' ' || c = '\t' || c = '\r' || c = '\n'

def isNameStart (c : Char) : Bool :=
  c.isAlpha || c = '_'

def isNamePart (c : Char) : Bool :=
  c.isAlphanum || c = '_'

/-- The punctuator that starts with `c`, the longer one if an equals sign follows. -/
def punctuator? (c : Char) (equalFollows : Bool) : Option Punctuator :=
  let spelled (word : List Char) := Punctuator.all.find? fun p => p.spelling = word
  if equalFollows then (spelled [c, '=']).or (spelled [c]) else spelled [c]

def word (lexeme : List Char) : Kind :=
  match Keyword.ofSpelling? lexeme with
  | some k => .keyword k
  | none => .identifier

/-- The digits after a point; without a digit right after it, the point is not part of the number. -/
def fraction : List Char → List Char
  | '.' :: cs => cs.takeWhile Char.isDigit
  | _ => []

/-- Digits, and a fraction if there is one. -/
def number (digits rest : List Char) : Piece :=
  let places := fraction rest
  let lexeme := if places.isEmpty then digits else digits ++ '.' :: places
  token (.number (Decimal.ofDigits digits places).toFloat) lexeme

/-- A string ends at the next quote, on whatever line that is. -/
def quoted (cs : List Char) : Piece :=
  let body := cs.takeWhile (· ≠ '"')
  if '"' ∈ cs then token (.string (String.ofList body)) ('"' :: body ++ ['"'])
  else openString cs

/-- The piece that the text `c :: cs` starts with. -/
def first (c : Char) (cs : List Char) : Piece :=
  if isBlank c then blank c
  else if c = '/' && cs.head? = some '/' then comment (cs.tail.takeWhile (· ≠ '\n'))
  else if c = '"' then quoted cs
  else if c.isDigit then number (c :: cs.takeWhile Char.isDigit) (cs.dropWhile Char.isDigit)
  else if isNameStart c then
    let lexeme := c :: cs.takeWhile isNamePart
    token (word lexeme) lexeme
  else match punctuator? c (cs.head? = some '=') with
    | some p => token (.punctuator p) p.spelling
    | none => stray c

/-- The pieces of a text whose first `covered` characters belong to an earlier piece. -/
def splitAfter (covered : Nat) : List Char → List Piece
  | [] => []
  | c :: cs =>
    match covered with
    | n + 1 => splitAfter n cs
    | 0 =>
      let p := first c cs
      p :: splitAfter (p.chars.length - 1) cs

def split (cs : List Char) : List Piece :=
  splitAfter 0 cs

end Piece

end TreeWalk
