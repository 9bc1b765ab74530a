/-!
Binary64 numbers as whole counts of the least step `2⁻¹⁰⁷⁴`, and the number nearest to a ratio.
-/

namespace TreeWalk

/-- What a binary64 number stands for. The pattern of a finite number is its place among the
finite magnitudes in ascending order, zero being the first; zero has a sign too. -/
inductive Reading where
  | nan
  | infinite (negative : Bool)
  | finite (negative : Bool) (pattern : Nat)
  deriving DecidableEq, Repr

namespace Binary64

/-- How many of the least steps make one. -/
def unitsPerOne : Nat := Nat.pow 2 1074

/-- The pattern of positive infinity, one above that of the greatest finite number. -/
def infinityPattern : Nat := 0x7FF0000000000000

/-- The number of least steps in the finite magnitude with this pattern. -/
def unitsOfPattern (pattern : Nat) : Nat :=
  let exponent := pattern / Nat.pow 2 52 % Nat.pow 2 11
  let fraction := pattern % Nat.pow 2 52
  if exponent = 0 then fraction else (Nat.pow 2 52 + fraction) * Nat.pow 2 (exponent - 1)

/-- The quotient of two naturals rounded to the nearest natural, a half to the even one. -/
def divNearest (num den : Nat) : Nat :=
  let q := num / den
  let r := 2 * (num % den)
  if r < den then q else if den < r then q + 1 else q + q % 2

/-- The pattern of the nonnegative number nearest to `num / den`, a tie going to the even
pattern, and infinity where even the greatest finite number is too small. -/
def nearestPattern (num den : Nat) : Nat :=
  let scaled := num * unitsPerOne
  let shift := (scaled / den).log2 - 52
  min (shift * Nat.pow 2 52 + divNearest scaled (den * Nat.pow 2 shift)) infinityPattern

end Binary64

/-- Takes a number apart into sign and magnitude. -/
def Reading.of (x : Float) : Reading :=
  let pattern := x.toBits.toNat
  let negative := decide (Nat.pow 2 63 ≤ pattern)
  let magnitude := pattern % Nat.pow 2 63
  if magnitude < Binary64.infinityPattern then .finite negative magnitude
  else if magnitude = Binary64.infinityPattern then .infinite negative
  else .nan

end TreeWalk
