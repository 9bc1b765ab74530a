import TreeWalk.Syntax.Outline
import TreeWalk.Token.Listing
import TreeWalk.Proofs.Number.ReadBack

/-! Number literals in outlines and in listings. Both show a number that is not whole as they show
values, and a whole one below `10¹⁵` with one decimal place. Outlines do so from there on as well,
where listings show digits only. -/

namespace TreeWalk

open Binary64

/-- What is above all numbers is read as this one. -/
def infinity : Float :=
  Float.ofBits infinityPattern.toUInt64

theorem isInf_infinity : infinity.isInf = true := by
  decide +kernel

namespace Decimal

theorem pattern_le (d : Decimal) : d.pattern ≤ infinityPattern :=
  Nat.min_le_right _ _

/-- Decimals read as numbers without a sign. -/
theorem toFloat_cases (d : Decimal) :
    (d.toFloat.isFinite = true ∧ Numeral.isNegative d.toFloat = false) ∨ d.toFloat = infinity := by
  have hinfinity : infinityPattern < 2 ^ 63 := by decide +kernel
  have hbits : d.toFloat.toBits.toNat = d.pattern := toNat_toBits_ofBits d.pattern_le
  rcases Nat.lt_or_eq_of_le d.pattern_le with hless | hequal
  · refine .inl ⟨?_, ?_⟩
    · rw [isFinite_iff, hbits]
      omega
    · rw [Numeral.isNegative, hbits]
      apply decide_eq_false
      omega
  · refine .inr ?_
    rw [toFloat, hequal]
    rfl

end Decimal

namespace Numeral

variable {x : Float} {n : Nat}

/-- The whole number that a number is, if it is one. Infinities are none. -/
def wholeNumber? (x : Float) : Option Nat :=
  if x.isFinite then whole? (magnitude x) else none

theorem wholeNumber?_eq_some (h : wholeNumber? x = some n) :
    x.isFinite = true ∧ whole? (magnitude x) = some n := by
  unfold wholeNumber? at h
  split at h
  · next hfinite => exact ⟨hfinite, h⟩
  · cases h

theorem wholeNumber?_of_reading {negative : Bool} {pattern : Nat}
    (h : Reading.of x = .finite negative pattern) : wholeNumber? x = whole? pattern := by
  by_cases hfinite : x.isFinite = true
  · rw [reading_of_finite hfinite] at h
    cases h
    exact if_pos hfinite
  · rw [isFinite_iff] at hfinite
    simp only [Reading.of, Nat.pow_eq, if_neg hfinite] at h
    split_ifs at h

section Outlines

theorem ofOutline_whole (h : wholeNumber? x = some n) : ofOutline x = withPlace (isNegative x) n := by
  obtain ⟨hfinite, hwhole⟩ := wholeNumber?_eq_some h
  rw [ofOutline, reading_of_finite hfinite]
  simp only [hwhole]

theorem ofOutline_broken (h : wholeNumber? x = none) : ofOutline x = ofValue x := by
  unfold ofOutline
  split
  · next hreading => simp only [← wholeNumber?_of_reading hreading, h]
  · rfl

/-- A whole number with one decimal place reads as the number. -/
theorem pattern_withPlace (h : wholeNumber? x = some n) :
    (Decimal.ofDigits (Decimal.digitsOf n) ['0']).pattern = magnitude x := by
  obtain ⟨hfinite, hwhole⟩ := wholeNumber?_eq_some h
  have hvalue : Decimal.valueOfDigits (Decimal.digitsOf n ++ ['0']) = n * 10 ^ 1 := by
    have hzeros := Decimal.valueOfDigits_append_zeros (Decimal.digitsOf n) 1
    rwa [Decimal.valueOfDigits_digitsOf] at hzeros
  have hratio : (Decimal.ofDigits (Decimal.digitsOf n) ['0']).ratio = (n * 10 ^ 1, 10 ^ 1) := by
    rw [Decimal.ofDigits, hvalue]
    rfl
  rw [Decimal.pattern, hratio]
  apply nearestPattern_exact (magnitude_lt hfinite) (Nat.pow_pos (by decide))
  rw [units_of_whole? hwhole, Nat.mul_right_comm]

/-- In an outline a number without a sign looks like a token of that number. -/
theorem regular_ofOutline (hfinite : x.isFinite = true) (hsign : isNegative x = false) :
    (Piece.token (.number x) (ofOutline x).toList).Regular := by
  cases hwhole : wholeNumber? x with
  | none =>
    obtain ⟨whole, places, hwrites⟩ := (decimal x).exists_writes
    have hregular := hwrites.regular
    rw [toFloat_of_positive hfinite hsign] at hregular
    rw [ofOutline_broken hwhole, ofValue_eq hfinite, hsign, signed, if_neg Bool.false_ne_true,
      String.toList_ofList]
    exact hregular
  | some n =>
    have hvalue : (Decimal.ofDigits (Decimal.digitsOf n) ['0']).toFloat = x := by
      rw [Decimal.toFloat, pattern_withPlace hwhole, ofBits_magnitude hsign]
    rw [ofOutline_whole hwhole, withPlace, hsign, signed, if_neg Bool.false_ne_true,
      String.toList_ofList, ← hvalue]
    apply Piece.Regular.fractional
    · exact Decimal.digitsOf_ne_nil n
    · intro c hc
      exact Decimal.isDigit_of_mem_digitsOf hc
    · exact List.cons_ne_nil _ _
    · intro c hc
      rw [List.mem_singleton.mp hc]
      rfl

end Outlines

section Listings

theorem ofToken_whole (h : wholeNumber? x = some n) :
    ofToken x = if n < 10 ^ 15 then withPlace (isNegative x && n ≠ 0) n else ofValue x := by
  obtain ⟨hfinite, hwhole⟩ := wholeNumber?_eq_some h
  rw [ofToken, reading_of_finite hfinite]
  simp only [hwhole, Nat.pow_eq]

theorem ofToken_broken (h : wholeNumber? x = none) : ofToken x = ofValue x := by
  unfold ofToken
  split
  · next hreading => simp only [← wholeNumber?_of_reading hreading, h]
  · rfl

/-- As a value a whole number without a sign has digits only, however large it is. -/
theorem isDigit_ofValue (h : wholeNumber? x = some n) (hsign : isNegative x = false) :
    ∀ c ∈ (ofValue x).toList, c.isDigit = true := by
  obtain ⟨hfinite, hwhole⟩ := wholeNumber?_eq_some h
  have hunits := units_of_whole? hwhole
  -- Its shortest decimal is a multiple of a power of ten, which needs no point.
  have hexponent : 0 ≤ (decimal x).exponent := by
    rcases Nat.eq_zero_or_pos n with rfl | hpositive
    · rw [Nat.zero_mul] at hunits
      simp only [decimal, Decimal.shortest, hunits, if_true, Int.le_refl]
    · exact (Decimal.shortest_of_whole .upward (magnitude_lt hfinite) hunits hpositive).1
  have hwrites := (decimal x).writes_whole hexponent
  intro c hc
  rw [ofValue_eq hfinite, hsign, signed, if_neg Bool.false_ne_true, String.toList_ofList,
    hwrites.text] at hc
  exact hwrites.isDigit c hc

end Listings

/-- The number of a number token is read from a decimal. -/
theorem exists_decimal_of_regular {lexeme : List Char}
    (h : (Piece.token (.number x) lexeme).Regular) : ∃ d : Decimal, d.toFloat = x := by
  generalize hp : Piece.token (.number x) lexeme = p at h
  cases h with
  | whole digits =>
    cases hp
    exact ⟨_, rfl⟩
  | fractional digits places =>
    cases hp
    exact ⟨_, rfl⟩
  | blank | comment | punctuator | keyword | identifier | string => cases hp

/-- A literal denotes a finite number without a sign, or else infinity. -/
theorem isFinite_of_regular {lexeme : List Char} (h : (Piece.token (.number x) lexeme).Regular)
    (hinfinite : x.isInf = false) : x.isFinite = true ∧ isNegative x = false := by
  obtain ⟨d, rfl⟩ := exists_decimal_of_regular h
  rcases d.toFloat_cases with hplain | hinfinity
  · exact hplain
  · rw [hinfinity, isInf_infinity] at hinfinite
    cases hinfinite

/-- Numbers in a source have no sign. -/
theorem isNegative_of_mem_tokens {source : String} {t : Token} (ht : t ∈ Source.tokens source)
    (hx : t.kind = .number x) : isNegative x = false := by
  rcases Source.word_cases ht with hend | hregular
  · have hkind : t.kind = .eof := congrArg Prod.fst hend
    rw [hx] at hkind
    cases hkind
  · rw [hx] at hregular
    obtain ⟨d, rfl⟩ := exists_decimal_of_regular hregular
    rcases d.toFloat_cases with ⟨-, hsign⟩ | hinfinity
    · exact hsign
    · rw [hinfinity]
      decide +kernel

end Numeral

section Columns

open Numeral

variable {source : String} {t : Token} {x : Float}

/-- The last column of a number token's listing against the outline of the literal that the token
is parsed to. The two are the same for a number that is not whole, and for a whole one below `10¹⁵`,
which both show with one decimal place. From there on the outline still has its decimal place, and
the listing shows digits only. -/
theorem number_columns (ht : t ∈ Source.tokens source) (hx : t.kind = .number x) :
    (∀ id, parseExpression [t, Token.endMark t.line] id = (.ok (.literal (.number x)), id)) ∧
    t.listing = "NUMBER " ++ t.lexeme ++ " " ++ t.kind.literalText ∧
    (wholeNumber? x = none →
      t.kind.literalText = (Expr.literal (.number x)).outline ∧
        (Expr.literal (.number x)).outline = ofValue x) ∧
    ∀ n, wholeNumber? x = some n →
      (Expr.literal (.number x)).outline = ofNat n ++ ".0" ∧
        (n < 10 ^ 15 → t.kind.literalText = (Expr.literal (.number x)).outline) ∧
        (10 ^ 15 ≤ n → t.kind.literalText = ofValue x ∧
          ∀ c ∈ t.kind.literalText.toList, c.isDigit = true) := by
  have hsign := isNegative_of_mem_tokens ht hx
  have hcolumn : t.kind.literalText = ofToken x := by rw [hx]; rfl
  have houtline : (Expr.literal (.number x)).outline = ofOutline x := rfl
  have hname : t.kind.name = "NUMBER" := by rw [hx]; rfl
  refine ⟨parse_number hx t.line, ?_, ?_, ?_⟩
  · rw [Token.listing, hname]
    rfl
  · intro hbroken
    rw [hcolumn, houtline, ofToken_broken hbroken, ofOutline_broken hbroken]
    exact ⟨rfl, rfl⟩
  · intro n hwhole
    rw [hcolumn, houtline, ofToken_whole hwhole, ofOutline_whole hwhole, hsign, Bool.false_and]
    refine ⟨?_, ?_, ?_⟩
    · exact String.ofList_append
    · intro hsmall
      rw [if_pos hsmall]
    · intro hlarge
      rw [if_neg (Nat.not_lt.mpr hlarge)]
      exact ⟨rfl, isDigit_ofValue hwhole hsign⟩

/-- A literal between two numbers, more than `2⁵³`. -/
def betweenNumbers : Token :=
  ⟨.number (Decimal.ofDigits "9007199254740993".toList []).toFloat, "9007199254740993", 1⟩

theorem number_columns_betweenNumbers :
    betweenNumbers ∈ Source.tokens "9007199254740993" ∧
      ∃ x, betweenNumbers.kind = .number x ∧
        (Expr.literal (.number x)).outline = "9007199254740992.0" ∧
        ∀ c ∈ betweenNumbers.kind.literalText.toList, c.isDigit = true := by
  have htokens : Source.tokens "9007199254740993" = [betweenNumbers, Token.endMark 1] := by
    decide +kernel
  have hmem : betweenNumbers ∈ Source.tokens "9007199254740993" := by
    rw [htokens]
    exact List.mem_cons_self
  have hwhole : wholeNumber? (Decimal.ofDigits "9007199254740993".toList []).toFloat =
      some 9007199254740992 := by decide +kernel
  obtain ⟨-, -, -, hcolumns⟩ := number_columns hmem rfl
  obtain ⟨houtline, -, hlarge⟩ := hcolumns _ hwhole
  refine ⟨hmem, _, rfl, houtline, (hlarge (by decide)).2⟩

/-- The literal of `10¹⁵`. -/
def firstLarge : Token :=
  ⟨.number (Decimal.ofDigits "1000000000000000".toList []).toFloat, "1000000000000000", 1⟩

/-- The listing of the first whole number above all that are shown with a decimal place has none,
and the outline of the same literal has one. -/
theorem large_literal_without_place :
    (Source.tokens "1000000000000000").map Token.listing =
        ["NUMBER 1000000000000000 1000000000000000", "EOF  null"] ∧
      (parseExpression (Source.tokens "1000000000000000") 0).1.toOption.map Expr.outline =
        some "1000000000000000.0" ∧
      ¬ ∀ source, ∀ t ∈ Source.tokens source, ∀ x, t.kind = .number x →
        t.kind.literalText = (Expr.literal (.number x)).outline := by
  have hlistings : (Source.tokens "1000000000000000").map Token.listing =
      ["NUMBER 1000000000000000 1000000000000000", "EOF  null"] := by decide +kernel
  have houtline : (parseExpression (Source.tokens "1000000000000000") 0).1.toOption.map
      Expr.outline = some "1000000000000000.0" := by decide +kernel
  refine ⟨hlistings, houtline, ?_⟩
  intro hsame
  have hmem : firstLarge ∈ Source.tokens "1000000000000000" := by decide +kernel
  have hdiffers : firstLarge.kind.literalText ≠
      (Expr.literal (.number (Decimal.ofDigits "1000000000000000".toList []).toFloat)).outline := by
    decide +kernel
  exact hdiffers (hsame _ _ hmem _ rfl)

end Columns

end TreeWalk
