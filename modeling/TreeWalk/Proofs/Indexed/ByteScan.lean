import TreeWalk.Source.Scan

/-! Scanning by an index into the bytes of a source. A scanner of pieces has the pieces that are
left; here a cursor moves over the bytes, counts the lines as it goes, and cuts texts out of the
source between two indices. The fuel of a run bounds how often its loops go round, and a run that
uses it up has no result. Neither has one that reads a byte where there is none, cuts a text inside
a character, or finds no character or no number where it takes one to be. -/

namespace TreeWalk

/-- The index of the first byte of the piece being scanned, that of the next byte, the line, and
the kind of the token found, if there is one. -/
structure ByteCursor where
  start : Nat
  current : Nat
  line : Nat
  pending : Option Kind

/-- The cursor before the first byte. -/
def ByteCursor.first : ByteCursor :=
  ⟨0, 0, 1, none⟩

/-- The bytes of a source in UTF-8. -/
def Source.bytes (source : String) : List UInt8 :=
  source.toUTF8.data.toList

/-- The part of a source between two indices of bytes, both of which have to be where a character
starts, or at the end. -/
def Source.slice? (source : String) (i j : Nat) : Option String :=
  if h : i ≤ j ∧ (String.Pos.Raw.mk i).IsValid source ∧ (String.Pos.Raw.mk j).IsValid source then
    some (source.extract (source.pos ⟨i⟩ h.2.1) (source.pos ⟨j⟩ h.2.2))
  else none

/-- The decimal that a text is: digits, and possibly a point and more digits. -/
def Decimal.ofText? (text : List Char) : Option Decimal :=
  let whole := text.takeWhile Char.isDigit
  match text.dropWhile Char.isDigit with
  | [] => if whole.isEmpty then none else some (ofDigits whole [])
  | point :: places =>
    if !whole.isEmpty && point = '.' && !places.isEmpty && places.all Char.isDigit then
      some (ofDigits whole places)
    else none

abbrev ByteScan := ReaderT String (StateT ByteCursor Option)

namespace ByteScan

section Bytes

def isDigit (b : UInt8) : Bool :=
  '0'.toUInt8 ≤ b && b ≤ '9'.toUInt8

def isNameStart (b : UInt8) : Bool :=
  'a'.toUInt8 ≤ b && b ≤ 'z'.toUInt8 || 'A'.toUInt8 ≤ b && b ≤ 'Z'.toUInt8 || b = '_'.toUInt8

def isNamePart (b : UInt8) : Bool :=
  isNameStart b || isDigit b

/-- The byte that a punctuator starts with. -/
def opening (p : Punctuator) : Option UInt8 :=
  p.spelling.head?.map Char.toUInt8

/-- Punctuators that no longer one starts with. -/
def single? (b : UInt8) : Option Punctuator :=
  [.leftParen, .rightParen, .leftBrace, .rightBrace, .comma, .dot, .minus, .plus, .semicolon,
    .star].find? fun p => opening p = some b

/-- Punctuators with an equals sign after them and without it, by their first byte. -/
def paired? (b : UInt8) : Option (Punctuator × Punctuator) :=
  [(.bangEqual, .bang), (.equalEqual, .equal), (.lessEqual, .less), (.greaterEqual, .greater)].find?
    fun p => opening p.2 = some b

end Bytes

section Steps

variable {α : Type}

/-- Out of fuel, or out of bounds. -/
def stuck : ByteScan α := fun _ _ => none

def ofOption : Option α → ByteScan α
  | some a => return a
  | none => stuck

def size : ByteScan Nat := do
  return (Source.bytes (← read)).length

def isAtEnd : ByteScan Bool := do
  return (← size) ≤ (← get).current

def byteAt (i : Nat) : ByteScan UInt8 := do
  ofOption (Source.bytes (← read))[i]?

def slice (i j : Nat) : ByteScan String := do
  ofOption (Source.slice? (← read) i j)

def advance : ByteScan UInt8 := do
  let b ← byteAt (← get).current
  modify fun s => { s with current := s.current + 1 }
  return b

/-- The next byte, or zero at the end. -/
def peek : ByteScan UInt8 := do
  if ← isAtEnd then return 0 else byteAt (← get).current

/-- The byte after the next one, or zero where there is none. -/
def peekNext : ByteScan UInt8 := do
  let i := (← get).current + 1
  if (← size) ≤ i then return 0 else byteAt i

/-- Takes the next byte if it is the given one. -/
def takes (expected : UInt8) : ByteScan Bool := do
  if ← isAtEnd then return false
  else if (← peek) = expected then
    discard advance
    return true
  else return false

def lexeme : ByteScan String := do
  let s ← get
  slice s.start s.current

def found (kind : Kind) : ByteScan Unit :=
  modify fun s => { s with pending := some kind }

def nextLine : ByteScan Unit :=
  modify fun s => { s with line := s.line + 1 }

end Steps

section Pieces

/-- Passes over bytes of a class. -/
def passWhile (class_ : UInt8 → Bool) : Nat → ByteScan Unit
  | 0 => stuck
  | fuel + 1 => do
    if class_ (← peek) then
      discard advance
      passWhile class_ fuel

/-- Passes over the rest of a line. The line break is left, and counted as a blank. -/
def passComment : ByteScan Unit := do
  let i := (← get).current
  let n ← size
  if n < i then stuck
  else
    match ((Source.bytes (← read)).drop i).findIdx? (· = '\n'.toUInt8) with
    | some k => modify fun s => { s with current := i + k }
    | none => modify fun s => { s with current := n }

/-- Passes over the inside of a string, counting its lines. -/
def passString : Nat → ByteScan Unit
  | 0 => stuck
  | fuel + 1 => do
    if ← isAtEnd then return
    else if (← peek) = '"'.toUInt8 then return
    else
      if (← advance) = '\n'.toUInt8 then nextLine
      passString fuel

def string (fuel : Nat) : ByteScan (Except Diagnostic Unit) := do
  passString fuel
  if ← isAtEnd then return .error (.lexical (← get).line .unterminatedString)
  else
    discard advance
    let s ← get
    found (.string (← slice (s.start + 1) (s.current - 1)))
    return .ok ()

def number (fuel : Nat) : ByteScan Unit := do
  passWhile isDigit fuel
  if (← peek) = '.'.toUInt8 && isDigit (← peekNext) then
    discard advance
    passWhile isDigit fuel
  let d ← ofOption (Decimal.ofText? (← lexeme).toList)
  found (.number d.toFloat)

def name (fuel : Nat) : ByteScan Unit := do
  passWhile isNamePart fuel
  found (Piece.word (← lexeme).toList)

/-- Reports the whole character that the byte taken last is the first one of. -/
def stray : ByteScan (Except Diagnostic Unit) := do
  let s ← get
  let c ← ofOption (← slice s.start (← size)).toList.head?
  modify fun s => { s with current := s.start + c.utf8Size }
  return .error (.lexical s.line (.strayCharacter c))

/-- Scans one piece. -/
def scanToken (fuel : Nat) : ByteScan (Except Diagnostic Unit) := do
  let b ← advance
  if let some p := single? b then
    found (.punctuator p)
    return .ok ()
  else if let some (longer, shorter) := paired? b then
    found (.punctuator (if ← takes '='.toUInt8 then longer else shorter))
    return .ok ()
  else if b = ' '.toUInt8 || b = '\r'.toUInt8 || b = '\t'.toUInt8 then return .ok ()
  else if b = '\n'.toUInt8 then
    nextLine
    return .ok ()
  else if b = '/'.toUInt8 then
    if ← takes '/'.toUInt8 then passComment else found (.punctuator .slash)
    return .ok ()
  else if b = '"'.toUInt8 then string fuel
  else if isDigit b then
    number fuel
    return .ok ()
  else if isNameStart b then
    name fuel
    return .ok ()
  else stray

/-- The next item, or the end mark, which moves the cursor past the end. -/
def next : Nat → ByteScan (Option ScanItem)
  | 0 => stuck
  | fuel + 1 => do
    let s ← get
    let n ← size
    if n < s.current then return none
    else if s.current = n then
      set { s with current := n + 1 }
      return some (.ok (Token.endMark s.line))
    else
      set { s with start := s.current, pending := none }
      match ← scanToken fuel with
      | .error d => return some (.error d)
      | .ok () =>
        match (← get).pending with
        | some kind =>
          modify fun s => { s with pending := none }
          return some (.ok ⟨kind, ← lexeme, (← get).line⟩)
        | none => next fuel

/-- The answer to the call after `n` calls. -/
def answer (fuel : Nat) : Nat → ByteScan (Option ScanItem)
  | 0 => next fuel
  | n + 1 => do
    discard (next fuel)
    answer fuel n

end Pieces

end ByteScan

end TreeWalk
