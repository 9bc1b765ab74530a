import TreeWalk.Json
import TreeWalk.Token.Basic

/-!
Tokens in listings: one line of text each, or one JSON object each.
-/

namespace TreeWalk

/-- The last column of a listing: the value of a literal, or `null`. -/
def Kind.literalText : Kind → String
  | .string s => s
  | .number x => Numeral.ofToken x
  | _ => "null"

/-- A literal's kind is an object with its value, any other kind is its name. -/
def Kind.toJson : Kind → Json
  | .string s => .object [("STRING", .string s)]
  | .number x => .object [("NUMBER", .number x)]
  | kind => .string kind.name

namespace Token

/-- Kind, text and literal value, divided by single blanks. -/
def listing (t : Token) : String :=
  t.kind.name ++ " " ++ t.lexeme ++ " " ++ t.kind.literalText

def toJson (t : Token) : Json :=
  .object [("token_type", t.kind.toJson), ("lexeme", .string t.lexeme), ("line", .natural t.line)]

end Token

end TreeWalk
