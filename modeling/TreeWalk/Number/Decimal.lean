import TreeWalk.Number.Binary64

/-!
Decimals, the binary64 number each one reads as, and the shortest decimal that reads as a given
number.
-/

namespace TreeWalk

/-- The value `coefficient · 10 ^ exponent`. -/
structure Decimal where
  coefficient : Nat
  exponent : Int
  deriving DecidableEq, Repr

namespace Decimal

/-- The value as a quotient of naturals, numerator first. -/
def ratio (d : Decimal) : Nat × Nat :=
  if 0 ≤ d.exponent then (d.coefficient * Nat.pow 10 d.exponent.toNat, 1)
  else (d.coefficient, Nat.pow 10 (-d.exponent).toNat)

/-- The pattern of the binary64 number nearest to the decimal. -/
def pattern (d : Decimal) : Nat :=
  Binary64.nearestPattern d.ratio.1 d.ratio.2

/-- The binary64 number nearest to the decimal. -/
def toFloat (d : Decimal) : Float :=
  Float.ofBits d.pattern.toUInt64

/-- The value of a run of decimal digits. -/
def valueOfDigits (digits : List Char) : Nat :=
  digits.foldl (fun n c => 10 * n + (c.toNat - '0'.toNat)) 0

/-- The decimal written with these digits before and after the point. -/
def ofDigits (whole fraction : List Char) : Decimal :=
  ⟨valueOfDigits (whole ++ fraction), -fraction.length⟩

/-- Which of two decimals at the same distance from a number stands for it. -/
inductive Tie where
  | upward
  | toEven
  deriving DecidableEq, Repr

/-- The multiple of `10 ^ exponent` that reads as the number of the given pattern and units, the
nearer one if both neighbours of the number do. -/
def onGrid? (tie : Tie) (pattern units : Nat) (exponent : Int) : Option Decimal :=
  let (num, den) :=
    if 0 ≤ exponent then (units, Binary64.unitsPerOne * Nat.pow 10 exponent.toNat)
    else (units * Nat.pow 10 (-exponent).toNat, Binary64.unitsPerOne)
  let below : Decimal := ⟨num / den, exponent⟩
  let above : Decimal := ⟨num / den + 1, exponent⟩
  let rest := 2 * (num % den)
  let preferBelow := rest < den || rest = den && tie = .toEven && num / den % 2 = 0
  let candidates := if preferBelow then [below, above] else [above, below]
  candidates.find? fun d => d.coefficient ≠ 0 && d.pattern = pattern

/-- Tries ever finer grids, at most as many as the first argument says. -/
def firstOnGrid? (tie : Tie) (pattern units : Nat) : Nat → Int → Option Decimal
  | 0, _ => none
  | tries + 1, exponent =>
    (onGrid? tie pattern units exponent).orElse fun _ =>
      firstOnGrid? tie pattern units tries (exponent - 1)

/-- All digits of `units · 2⁻¹⁰⁷⁴`. -/
def exact (units : Nat) : Decimal :=
  ⟨units * Nat.pow 5 1074, -1074⟩

/-- A power of ten above every number of so many units: `0.30103` is just above `log₁₀ 2`. -/
def exponentAbove (units : Nat) : Int :=
  ((units.log2 : Int) + 1 - 1074) * 30103 / 100000 + 2

/-- The decimal with the fewest digits that reads as the positive number of this pattern, and of
those the nearest. Seventeen digits always suffice, so the grid search does not run out. -/
def shortest (tie : Tie) (pattern : Nat) : Decimal :=
  let units := Binary64.unitsOfPattern pattern
  if units = 0 then ⟨0, 0⟩
  else (firstOnGrid? tie pattern units 24 (exponentAbove units)).getD (exact units)

/-- The decimal digits of a natural number, without leading zeros. -/
def digitsOf (n : Nat) : List Char :=
  Nat.toDigits 10 n

/-- Positional notation: every digit down to the units, and a point only before a fraction. -/
def positional (d : Decimal) : List Char :=
  let digits := digitsOf d.coefficient
  if 0 ≤ d.exponent then digits ++ List.replicate d.exponent.toNat '0'
  else
    let places := (-d.exponent).toNat
    let padded := List.replicate (places + 1 - digits.length) '0' ++ digits
    padded.take (padded.length - places) ++ '.' :: padded.drop (padded.length - places)

/-- The exponent of ten that belongs to the first digit. -/
def leadingExponent (d : Decimal) : Int :=
  (digitsOf d.coefficient).length - 1 + d.exponent

/-- Scientific notation with a signed exponent; one digit stands before the point, and the point
is left out after a lone digit. -/
def scientific (d : Decimal) : List Char :=
  let e := d.leadingExponent
  let mantissa :=
    match digitsOf d.coefficient with
    | [] => []
    | [c] => [c]
    | c :: rest => c :: '.' :: rest
  mantissa ++ 'e' :: (if e < 0 then '-' else '+') :: digitsOf e.natAbs

end Decimal

end TreeWalk
