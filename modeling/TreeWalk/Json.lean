import TreeWalk.Number.Numeral

/-!
JSON documents with ordered fields, and their compact and indented texts.
-/

namespace TreeWalk

inductive Json where
  | natural (n : Nat)
  | number (x : Float)
  | string (s : String)
  | array (items : List Json)
  | object (fields : List (String × Json))

namespace Json

/-- Quotation marks, backslashes and control characters are written as escapes. -/
def escape (c : Char) : List Char :=
  match c with
  | '"' => ['\\', '"']
  | '\\' => ['\\', '\\']
  | '\x08' => ['\\', 'b']
  | '\x0c' => ['\\', 'f']
  | '\n' => ['\\', 'n']
  | '\r' => ['\\', 'r']
  | '\t' => ['\\', 't']
  | c =>
    if c.toNat < 32 then
      ['\\', 'u', '0', '0', Nat.digitChar (c.toNat / 16), Nat.digitChar (c.toNat % 16)]
    else [c]

def quote (s : String) : String :=
  String.ofList ('"' :: s.toList.flatMap escape ++ ['"'])

mutual

/-- The text without blanks. A number that JSON cannot write becomes `null`. -/
def compact : Json → String
  | natural n => Numeral.ofNat n
  | number x => (Numeral.json? x).getD "null"
  | string s => quote s
  | array items => "[" ++ String.intercalate "," (compactItems items) ++ "]"
  | object fields => "\x7b" ++ String.intercalate "," (compactFields fields) ++ "\x7d"

def compactItems : List Json → List String
  | [] => []
  | item :: items => compact item :: compactItems items

def compactFields : List (String × Json) → List String
  | [] => []
  | (name, value) :: fields => (quote name ++ ":" ++ compact value) :: compactFields fields

end

/-- The start of a line at a nesting depth: two blanks a level. -/
def newline (depth : Nat) : String :=
  String.ofList ('\n' :: List.replicate (2 * depth) ' ')

/-- Bracketed entries, each on a line of its own one level deeper; no entries stay on one line. -/
def bracketed (depth : Nat) (opening closing : String) (entries : List String) : String :=
  if entries.isEmpty then opening ++ closing
  else
    let start := newline (depth + 1)
    opening ++ start ++ String.intercalate ("," ++ start) entries ++ newline depth ++ closing

mutual

/-- The text with an entry per line, for a document that stands at the given depth. -/
def indented (depth : Nat) : Json → String
  | natural n => compact (natural n)
  | number x => compact (number x)
  | string s => compact (string s)
  | array items => bracketed depth "[" "]" (indentedItems (depth + 1) items)
  | object fields => bracketed depth "\x7b" "\x7d" (indentedFields (depth + 1) fields)

def indentedItems (depth : Nat) : List Json → List String
  | [] => []
  | item :: items => indented depth item :: indentedItems depth items

def indentedFields (depth : Nat) : List (String × Json) → List String
  | [] => []
  | (name, value) :: fields =>
    (quote name ++ ": " ++ indented depth value) :: indentedFields depth fields

end

end Json

end TreeWalk
