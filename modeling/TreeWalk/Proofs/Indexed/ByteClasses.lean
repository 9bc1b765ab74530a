import TreeWalk.Proofs.Indexed.Encoding
import TreeWalk.Proofs.Source.Cut

/-! The classes of bytes that a scanner of bytes tells apart are those of characters that pieces are
cut by, and numbers are read from their texts. -/

namespace TreeWalk

open Source

namespace ByteScan

variable {c : Char} {cs : List Char}

section Classes

theorem reads_isDigit : Reads Char.isDigit isDigit :=
  reads_between (d := '0') (e := '9') (by decide) (by decide)

theorem reads_isNameStart : Reads Piece.isNameStart isNameStart := by
  have hlower := reads_between (d := 'a') (e := 'z') (by decide) (by decide)
  have hupper := reads_between (d := 'A') (e := 'Z') (by decide) (by decide)
  have hunderscore := reads_eq (d := '_') (by decide)
  apply ((hlower.or hupper).or hunderscore).congr
  · intro c
    have hlower : c.isLower = (decide ('a' ≤ c) && decide (c ≤ 'z')) := rfl
    have hupper : c.isUpper = (decide ('A' ≤ c) && decide (c ≤ 'Z')) := Bool.decide_and _ _
    have halpha : c.isAlpha = (c.isUpper || c.isLower) := rfl
    rw [Piece.isNameStart, halpha, Bool.or_comm c.isUpper, hlower, hupper]
  · intro b
    rfl

theorem reads_isNamePart : Reads Piece.isNamePart isNamePart := by
  apply (reads_isNameStart.or reads_isDigit).congr
  · intro c
    rw [Piece.isNamePart, Piece.isNameStart, Char.isAlphanum, Bool.or_right_comm]
  · intro b
    rfl

end Classes

section Numbers

theorem ofText?_whole {digits : List Char} (nonempty : digits ≠ [])
    (hdigits : ∀ d ∈ digits, d.isDigit = true) :
    Decimal.ofText? digits = some (.ofDigits digits []) := by
  have htake : digits.takeWhile Char.isDigit = digits := List.takeWhile_eq_self_iff.mpr hdigits
  have hdrop : digits.dropWhile Char.isDigit = [] := List.dropWhile_eq_nil_iff.mpr hdigits
  simp [Decimal.ofText?, htake, hdrop, nonempty]

theorem ofText?_fraction {digits places : List Char} (nonempty : digits ≠ [])
    (hdigits : ∀ d ∈ digits, d.isDigit = true) (nonempty' : places ≠ [])
    (hplaces : ∀ d ∈ places, d.isDigit = true) :
    Decimal.ofText? (digits ++ '.' :: places) = some (.ofDigits digits places) := by
  have hpoint : ¬ Char.isDigit '.' = true := by decide
  have htake : (digits ++ '.' :: places).takeWhile Char.isDigit = digits := by
    rw [List.takeWhile_append_of_pos hdigits, List.takeWhile_cons_of_neg hpoint, List.append_nil]
  have hdrop : (digits ++ '.' :: places).dropWhile Char.isDigit = '.' :: places := by
    rw [List.dropWhile_append_of_pos hdigits, List.dropWhile_cons_of_neg hpoint]
  have hall : places.all Char.isDigit = true := List.all_eq_true.mpr hplaces
  simp [Decimal.ofText?, htake, hdrop, nonempty, nonempty', hall]

end Numbers

section Punctuators

variable {p : Punctuator} {pair : Punctuator × Punctuator} {b : UInt8}

/-- Punctuators start with narrow characters, which their first bytes tell. -/
theorem opening_eq_iff (hc : c.toNat < 128) :
    opening p = some c.toUInt8 ↔ p.spelling.head? = some c := by
  have hstart : ∃ d tail, p.spelling = d :: tail ∧ d.toNat < 128 := by
    cases p <;> exact ⟨_, _, rfl, by decide⟩
  obtain ⟨d, tail, hspelling, hd⟩ := hstart
  rw [opening, hspelling, List.head?_cons, Option.map_some, Option.some_inj, Option.some_inj,
    toUInt8_inj hd hc]

theorem opening_lt (h : opening p = some b) : b.toNat < 128 := by
  cases p <;> cases h <;> decide

theorem single?_eq_some (hc : c.toNat < 128) (h : single? c.toUInt8 = some p) :
    p.spelling = [c] ∧ p ≠ .slash ∧ ∀ e, Piece.punctuator? c e = some p := by
  have hhead : p.spelling.head? = some c := by
    rw [← opening_eq_iff hc]
    exact of_decide_eq_true (List.find?_some (p := fun q => opening q = some c.toUInt8) h)
  have hmem := List.mem_of_find?_eq_some h
  simp only [List.mem_cons, List.not_mem_nil, or_false] at hmem
  rcases hmem with rfl | rfl | rfl | rfl | rfl | rfl | rfl | rfl | rfl | rfl <;>
    cases hhead <;> exact ⟨rfl, by decide, fun e => by cases e <;> rfl⟩

theorem paired?_eq_some (hc : c.toNat < 128) (h : paired? c.toUInt8 = some pair) :
    pair.2.spelling = [c] ∧ pair.1.spelling = [c, '='] ∧ c ≠ '/' := by
  have hhead : pair.2.spelling.head? = some c := by
    rw [← opening_eq_iff hc]
    exact of_decide_eq_true (List.find?_some
      (p := fun q : Punctuator × Punctuator => opening q.2 = some c.toUInt8) h)
  have hmem := List.mem_of_find?_eq_some h
  simp only [List.mem_cons, List.not_mem_nil, or_false] at hmem
  rcases hmem with rfl | rfl | rfl | rfl <;> cases hhead <;> exact ⟨rfl, rfl, by decide⟩

theorem single?_wide (hb : 128 ≤ b.toNat) : single? b = none := by
  apply List.find?_eq_none.mpr
  intro p _ hp
  exact absurd (opening_lt (of_decide_eq_true hp)) (Nat.not_lt.mpr hb)

theorem paired?_wide (hb : 128 ≤ b.toNat) : paired? b = none := by
  apply List.find?_eq_none.mpr
  intro pair _ hp
  exact absurd (opening_lt (of_decide_eq_true hp)) (Nat.not_lt.mpr hb)

/-- The first byte of a punctuator is that of one that is found by it, but for the slash. -/
theorem opened (h : single? b = none) (h' : paired? b = none) (hslash : b ≠ '/'.toUInt8) :
    opening p ≠ some b := by
  intro hopening
  cases p <;> cases hopening <;> first | cases h; done | cases h'; done | exact hslash rfl

end Punctuators

end ByteScan

end TreeWalk
