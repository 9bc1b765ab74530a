/-!
Tokens: punctuators, keywords, names, literals and the end mark, with their spellings.
-/

namespace TreeWalk

/-- A constant as it is written in a program. -/
inductive Literal where
  | nil
  | bool (b : Bool)
  | number (x : Float)
  | string (s : String)
  deriving DecidableEq

inductive Punctuator where
  | leftParen
  | rightParen
  | leftBrace
  | rightBrace
  | comma
  | dot
  | minus
  | plus
  | semicolon
  | slash
  | star
  | bang
  | bangEqual
  | equal
  | equalEqual
  | greater
  | greaterEqual
  | less
  | lessEqual
  deriving DecidableEq, Repr

inductive Keyword where
  | and_
  | class_
  | else_
  | false_
  | fun_
  | for_
  | if_
  | nil_
  | or_
  | print_
  | return_
  | super_
  | this_
  | true_
  | var_
  | while_
  deriving DecidableEq, Repr

namespace Punctuator

/-- The characters a punctuator is written with. -/
def spelling : Punctuator → List Char
  | leftParen => ['(']
  | rightParen => [')']
  | leftBrace => ['{']
  | rightBrace => ['}']
  | comma => [',']
  | dot => ['.']
  | minus => ['-']
  | plus => ['+']
  | semicolon => [';']
  | slash => ['/']
  | star => ['*']
  | bang => ['!']
  | bangEqual => ['!', '=']
  | equal => ['=']
  | equalEqual => ['=', '=']
  | greater => ['>']
  | greaterEqual => ['>', '=']
  | less => ['<']
  | lessEqual => ['<', '=']

/-- The name a punctuator has in token listings. -/
def name : Punctuator → String
  | leftParen => "LEFT_PAREN"
  | rightParen => "RIGHT_PAREN"
  | leftBrace => "LEFT_BRACE"
  | rightBrace => "RIGHT_BRACE"
  | comma => "COMMA"
  | dot => "DOT"
  | minus => "MINUS"
  | plus => "PLUS"
  | semicolon => "SEMICOLON"
  | slash => "SLASH"
  | star => "STAR"
  | bang => "BANG"
  | bangEqual => "BANG_EQUAL"
  | equal => "EQUAL"
  | equalEqual => "EQUAL_EQUAL"
  | greater => "GREATER"
  | greaterEqual => "GREATER_EQUAL"
  | less => "LESS"
  | lessEqual => "LESS_EQUAL"

def all : List Punctuator :=
  [leftParen, rightParen, leftBrace, rightBrace, comma, dot, minus, plus, semicolon, slash, star,
    bang, bangEqual, equal, equalEqual, greater, greaterEqual, less, lessEqual]

end Punctuator

namespace Keyword

def spelling : Keyword → List Char
  | and_ => ['a', 'n', 'd']
  | class_ => ['c', 'l', 'a', 's', 's']
  | else_ => ['e', 'l', 's', 'e']
  | false_ => ['f', 'a', 'l', 's', 'e']
  | fun_ => ['f', 'u', 'n']
  | for_ => ['f', 'o', 'r']
  | if_ => ['i', 'f']
  | nil_ => ['n', 'i', 'l']
  | or_ => ['o', 'r']
  | print_ => ['p', 'r', 'i', 'n', 't']
  | return_ => ['r', 'e', 't', 'u', 'r', 'n']
  | super_ => ['s', 'u', 'p', 'e', 'r']
  | this_ => ['t', 'h', 'i', 's']
  | true_ => ['t', 'r', 'u', 'e']
  | var_ => ['v', 'a', 'r']
  | while_ => ['w', 'h', 'i', 'l', 'e']

/-- Token listings name a keyword by its spelling in capitals. -/
def name (k : Keyword) : String :=
  String.ofList (k.spelling.map Char.toUpper)

def all : List Keyword :=
  [and_, class_, else_, false_, fun_, for_, if_, nil_, or_, print_, return_, super_, this_, true_,
    var_, while_]

def ofSpelling? (word : List Char) : Option Keyword :=
  all.find? fun k => k.spelling = word

theorem ofSpelling?_spelling (k : Keyword) : ofSpelling? k.spelling = some k := by
  cases k <;> rfl

end Keyword

/-- What a token is. Literals carry their value. -/
inductive Kind where
  | punctuator (p : Punctuator)
  | keyword (k : Keyword)
  | identifier
  | string (s : String)
  | number (x : Float)
  | eof
  deriving DecidableEq

namespace Kind

def name : Kind → String
  | punctuator p => p.name
  | keyword k => k.name
  | identifier => "IDENTIFIER"
  | string _ => "STRING"
  | number _ => "NUMBER"
  | eof => "EOF"

/-- Two kinds agree when they differ at most in the value of a literal. -/
def agrees : Kind → Kind → Bool
  | punctuator p, punctuator q => p = q
  | keyword k, keyword l => k = l
  | identifier, identifier => true
  | string _, string _ => true
  | number _, number _ => true
  | eof, eof => true
  | _, _ => false

def literal? : Kind → Option Literal
  | string s => some (.string s)
  | number x => some (.number x)
  | _ => none

end Kind

structure Token where
  kind : Kind
  lexeme : String
  line : Nat
  deriving DecidableEq

namespace Token

/-- The end mark, which has no text of its own. -/
def endMark (line : Nat) : Token :=
  ⟨.eof, "", line⟩

def isEnd (t : Token) : Bool :=
  t.kind.agrees .eof

def isPunctuator (p : Punctuator) (t : Token) : Bool :=
  t.kind.agrees (.punctuator p)

def isKeyword (k : Keyword) (t : Token) : Bool :=
  t.kind.agrees (.keyword k)

def isIdentifier (t : Token) : Bool :=
  t.kind.agrees .identifier

/-- Two tokens agree when kind, text and line do; the value of a literal is left out. -/
def agrees (s t : Token) : Bool :=
  s.kind.agrees t.kind && s.lexeme = t.lexeme && s.line = t.line

theorem isEnd_iff {t : Token} : t.isEnd = true ↔ t.kind = .eof := by
  unfold isEnd
  cases t.kind <;> simp [Kind.agrees]

theorem isPunctuator_iff {p : Punctuator} {t : Token} :
    t.isPunctuator p = true ↔ t.kind = .punctuator p := by
  unfold isPunctuator
  cases t.kind <;> simp [Kind.agrees]

theorem isPunctuator_eq_false {p : Punctuator} {t : Token} (h : t.kind ≠ .punctuator p) :
    t.isPunctuator p = false := by
  rw [Bool.eq_false_iff, ne_eq, isPunctuator_iff]
  exact h

theorem isKeyword_iff {k : Keyword} {t : Token} :
    t.isKeyword k = true ↔ t.kind = .keyword k := by
  unfold isKeyword
  cases t.kind <;> simp [Kind.agrees]

theorem isKeyword_eq_false {k : Keyword} {t : Token} (h : t.kind ≠ .keyword k) :
    t.isKeyword k = false := by
  rw [Bool.eq_false_iff, ne_eq, isKeyword_iff]
  exact h

theorem isIdentifier_iff {t : Token} : t.isIdentifier = true ↔ t.kind = .identifier := by
  unfold isIdentifier
  cases t.kind <;> simp [Kind.agrees]

end Token

end TreeWalk
