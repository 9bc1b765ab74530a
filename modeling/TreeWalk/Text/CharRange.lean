/-!
Sets of characters as lists of closed ranges of code points.
-/

namespace TreeWalk.Text

/-- The first and the last code point of a range. -/
abbrev CharRange := Nat × Nat

namespace CharRange

def covers (ranges : List CharRange) (c : Char) : Bool :=
  ranges.any fun r => r.1 ≤ c.toNat && c.toNat ≤ r.2

/-- Whether every range lies wholly after the one before it, with a gap between them. -/
def ascending : List CharRange → Bool
  | [] => true
  | [r] => r.1 ≤ r.2
  | r :: s :: rest => r.1 ≤ r.2 && r.2 + 1 < s.1 && ascending (s :: rest)

/-- How many code points ascending ranges hold. -/
def total (ranges : List CharRange) : Nat :=
  ranges.foldl (fun count r => count + (r.2 + 1 - r.1)) 0

end CharRange

end TreeWalk.Text
