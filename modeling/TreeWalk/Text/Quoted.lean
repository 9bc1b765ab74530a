import TreeWalk.Text.GraphemeExtend
import TreeWalk.Text.Printable

/-!
Quoted text that shows every character: one that could not be seen, or that would change the one
before it, is written by its code point.
-/

namespace TreeWalk.Text

/-- The letter after the backslash for characters with a short escape. -/
def shortEscape? (c : Char) : Option Char :=
  match c with
  | '\x00' => some '0'
  | '\t' => some 't'
  | '\r' => some 'r'
  | '\n' => some 'n'
  | '\\' => some '\\'
  | '"' => some '"'
  | '\x27' => some '\x27'
  | _ => none

/-- A character by its code point in hexadecimal. -/
def codeEscape (c : Char) : List Char :=
  '\\' :: 'u' :: '\x7b' :: Nat.toDigits 16 c.toNat ++ ['\x7d']

def visible (c : Char) : List Char :=
  match shortEscape? c with
  | some letter => ['\\', letter]
  | none => if isGraphemeExtend c || !isPrintable c then codeEscape c else [c]

def quoted (s : String) : String :=
  String.ofList ('"' :: s.toList.flatMap visible ++ ['"'])

end TreeWalk.Text
