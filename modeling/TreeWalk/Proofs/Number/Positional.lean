import Mathlib
import TreeWalk.Number.Decimal

/-! Decimals in positional notation: digits, and a point only between digits, that stand for the
decimal they were written from. -/

namespace TreeWalk

namespace Decimal

section Digits

variable {digits : List Char} {n : Nat}

theorem valueOfDigits_eq (digits : List Char) :
    valueOfDigits digits = Nat.ofDigitChars 10 digits 0 :=
  Nat.ofDigitChars_eq_foldl.symm

theorem valueOfDigits_digitsOf (n : Nat) : valueOfDigits (digitsOf n) = n := by
  rw [valueOfDigits_eq]
  exact Nat.ofDigitChars_ten_toDigits

theorem isDigit_of_mem_digitsOf {c : Char} (h : c ∈ digitsOf n) : c.isDigit = true :=
  Nat.isDigit_of_mem_toDigits (by decide) (by decide) h

theorem digitsOf_ne_nil (n : Nat) : digitsOf n ≠ [] :=
  Nat.toDigits_ne_nil

theorem isDigit_of_mem_zeros {c : Char} {k : Nat} (h : c ∈ List.replicate k '0') :
    c.isDigit = true := by
  rw [List.eq_of_mem_replicate h]
  rfl

theorem valueOfDigits_append_zeros (digits : List Char) (k : Nat) :
    valueOfDigits (digits ++ List.replicate k '0') = valueOfDigits digits * 10 ^ k := by
  simp only [valueOfDigits_eq, Nat.ofDigitChars_append, Nat.ofDigitChars_replicate_zero]
  exact Nat.mul_comm _ _

theorem valueOfDigits_zeros_append (digits : List Char) (k : Nat) :
    valueOfDigits (List.replicate k '0' ++ digits) = valueOfDigits digits := by
  simp only [valueOfDigits_eq, Nat.ofDigitChars_append, Nat.ofDigitChars_replicate_zero, Nat.mul_zero]

/-- A power of ten adds zeros to the digits of a positive number. -/
theorem digitsOf_mul_pow (hn : 0 < n) (k : Nat) :
    digitsOf (n * 10 ^ k) = digitsOf n ++ List.replicate k '0' := by
  induction k with
  | zero => rw [Nat.pow_zero, Nat.mul_one, List.replicate_zero, List.append_nil]
  | succ k ih =>
    have hpos : 0 < n * 10 ^ k := Nat.mul_pos hn (Nat.pow_pos (by decide))
    have hnext : Nat.toDigits 10 (n * 10 ^ k) ++ Nat.toDigits 10 0 =
        Nat.toDigits 10 (10 * (n * 10 ^ k) + 0) :=
      Nat.toDigits_append_toDigits (by decide) hpos (by decide)
    have hproduct : 10 * (n * 10 ^ k) + 0 = n * 10 ^ (k + 1) := by
      rw [Nat.add_zero, Nat.pow_succ, Nat.mul_comm 10, Nat.mul_assoc]
    calc digitsOf (n * 10 ^ (k + 1)) = digitsOf (n * 10 ^ k) ++ ['0'] := by
          rw [digitsOf, ← hproduct, ← hnext]
          rfl
      _ = digitsOf n ++ List.replicate (k + 1) '0' := by
          rw [ih, List.append_assoc, ← List.replicate_succ']

end Digits

/-- A text of digits, with a point before the places if there are any, that reads as the decimal. -/
structure Writes (d : Decimal) (whole places : List Char) : Prop where
  nonempty : whole ≠ []
  isDigit : ∀ c ∈ whole, c.isDigit = true
  isDigit' : ∀ c ∈ places, c.isDigit = true
  text : d.positional = if places.isEmpty then whole else whole ++ '.' :: places
  pattern : (ofDigits whole places).pattern = d.pattern

/-- Without places behind the point all zeros are written out. -/
theorem writes_whole (d : Decimal) (h : 0 ≤ d.exponent) :
    d.Writes (digitsOf d.coefficient ++ List.replicate d.exponent.toNat '0') [] where
  nonempty := List.append_ne_nil_of_left_ne_nil (digitsOf_ne_nil _) _
  isDigit c hc := by
    rcases List.mem_append.mp hc with hc | hc
    · exact isDigit_of_mem_digitsOf hc
    · exact isDigit_of_mem_zeros hc
  isDigit' c hc := absurd hc List.not_mem_nil
  text := by
    simp only [positional, h, if_true, List.isEmpty_nil]
  pattern := by
    have hratio : (ofDigits (digitsOf d.coefficient ++ List.replicate d.exponent.toNat '0') []).ratio
        = d.ratio := by
      simp only [ratio, ofDigits, List.append_nil, List.length_nil, Int.ofNat_zero, Int.neg_zero,
        Int.le_refl, if_true, Int.toNat_zero, h, valueOfDigits_append_zeros,
        valueOfDigits_digitsOf, Nat.pow_eq, Nat.pow_zero, Nat.mul_one]
    rw [Decimal.pattern, hratio, Decimal.pattern]

/-- With places there is a digit before the point, a zero if need be. -/
theorem exists_writes_places (d : Decimal) (h : ¬ 0 ≤ d.exponent) :
    ∃ whole places, d.Writes whole places := by
  generalize hcount : (-d.exponent).toNat = count
  have hexponent : d.exponent = -(count : Int) := by omega
  have hpositive : 0 < count := by omega
  generalize hpadded : List.replicate (count + 1 - (digitsOf d.coefficient).length) '0' ++
    digitsOf d.coefficient = padded
  have hlength : count + 1 ≤ padded.length := by
    rw [← hpadded, List.length_append, List.length_replicate]
    omega
  have hdigits : ∀ c ∈ padded, c.isDigit = true := by
    intro c hc
    rw [← hpadded] at hc
    rcases List.mem_append.mp hc with hc | hc
    · exact isDigit_of_mem_zeros hc
    · exact isDigit_of_mem_digitsOf hc
  have hvalue : valueOfDigits padded = d.coefficient := by
    rw [← hpadded, valueOfDigits_zeros_append, valueOfDigits_digitsOf]
  have hplaces : (padded.drop (padded.length - count)).length = count := by
    rw [List.length_drop]
    omega
  have hsome : (padded.drop (padded.length - count)).isEmpty = false := by
    rw [List.isEmpty_eq_false_iff, ← List.length_pos_iff, hplaces]
    exact hpositive
  refine ⟨padded.take (padded.length - count), padded.drop (padded.length - count),
    ?_, ?_, ?_, ?_, ?_⟩
  · rw [← List.length_pos_iff, List.length_take]
    omega
  · intro c hc
    exact hdigits c (List.mem_of_mem_take hc)
  · intro c hc
    exact hdigits c (List.mem_of_mem_drop hc)
  · rw [hsome]
    simp only [positional, h, if_false, hcount, hpadded, Bool.false_eq_true]
  · have hsame : ofDigits (padded.take (padded.length - count))
        (padded.drop (padded.length - count)) = d := by
      rw [ofDigits, List.take_append_drop, hvalue, hplaces, ← hexponent]
    rw [hsame]

theorem exists_writes (d : Decimal) : ∃ whole places, d.Writes whole places := by
  by_cases h : 0 ≤ d.exponent
  · exact ⟨_, _, d.writes_whole h⟩
  · exact d.exists_writes_places h

end Decimal

end TreeWalk
