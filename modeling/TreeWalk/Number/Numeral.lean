import TreeWalk.Number.Decimal

/-!
The texts of numbers: as values, as token literals, as literals of an outline, and in JSON.
-/

namespace TreeWalk.Numeral

def ofNat (n : Nat) : String :=
  String.ofList (Decimal.digitsOf n)

def signed (negative : Bool) (digits : List Char) : String :=
  String.ofList (if negative then '-' :: digits else digits)

/-- The whole number that a magnitude is, if it is one. -/
def whole? (pattern : Nat) : Option Nat :=
  let units := Binary64.unitsOfPattern pattern
  if units % Binary64.unitsPerOne = 0 then some (units / Binary64.unitsPerOne) else none

/-- The text of a number as a value: the fewest digits that read back, in positional notation
however many zeros that takes, halfway cases upward. -/
def ofValue (x : Float) : String :=
  match Reading.of x with
  | .nan => "NaN"
  | .infinite negative => signed negative ['i', 'n', 'f']
  | .finite negative pattern => signed negative (Decimal.shortest .upward pattern).positional

/-- A whole number with one decimal place, all its digits exact. -/
def withPlace (negative : Bool) (n : Nat) : String :=
  signed negative (Decimal.digitsOf n ++ ['.', '0'])

/-- Token literals show whole numbers below `10¹⁵` with one decimal place, and negative zero
without its sign; other numbers look as they do as values. -/
def ofToken (x : Float) : String :=
  match Reading.of x with
  | .finite negative pattern =>
    match whole? pattern with
    | some n => if n < Nat.pow 10 15 then withPlace (negative && n ≠ 0) n else ofValue x
    | none => ofValue x
  | _ => ofValue x

/-- Outlines show every whole number with one decimal place, whatever its size. -/
def ofOutline (x : Float) : String :=
  match Reading.of x with
  | .finite negative pattern =>
    match whole? pattern with
    | some n => withPlace negative n
    | none => ofValue x
  | _ => ofValue x

/-- JSON numbers have the fewest digits that read back, halfway cases to even. Notation is
positional, always with a point, when the first digit belongs to `10⁻⁵` up to `10¹⁵`, and
scientific otherwise. Infinities and NaN have no JSON number. -/
def json? (x : Float) : Option String :=
  match Reading.of x with
  | .finite negative pattern =>
    let d := Decimal.shortest .toEven pattern
    let e := d.leadingExponent
    let digits :=
      if -5 ≤ e && e < 16 then
        if 0 ≤ d.exponent then d.positional ++ ['.', '0'] else d.positional
      else d.scientific
    some (signed negative digits)
  | _ => none

end TreeWalk.Numeral
