import TreeWalk.Machine.Eval
import TreeWalk.Proofs.Grammar.Unparsing
import TreeWalk.Proofs.Number.Shortest
import TreeWalk.Proofs.Number.Sign
import TreeWalk.Proofs.Source.Rescanning

/-! The texts of finite numbers read back: a number without a sign is scanned as one number token
of that very number, and one with a sign as a minus and a number token, whose negation it is. -/

namespace TreeWalk

namespace Decimal

variable {whole places : List Char} {d : Decimal}

/-- Positional notation is one of the two forms of number tokens. -/
theorem Writes.regular (h : d.Writes whole places) :
    (Piece.token (.number d.toFloat) d.positional).Regular := by
  have hvalue : (ofDigits whole places).toFloat = d.toFloat := by
    rw [toFloat, h.pattern, toFloat]
  rw [h.text, ← hvalue]
  cases places with
  | nil => exact .whole whole h.nonempty h.isDigit
  | cons c places =>
    exact .fractional whole (c :: places) h.nonempty h.isDigit (List.cons_ne_nil c places) h.isDigit'

theorem Writes.mem_positional (h : d.Writes whole places) {c : Char} (hc : c ∈ d.positional) :
    c.isDigit = true ∨ c = '.' := by
  rw [h.text] at hc
  split at hc
  · exact .inl (h.isDigit c hc)
  · rcases List.mem_append.mp hc with hc | hc
    · exact .inl (h.isDigit c hc)
    · rcases List.mem_cons.mp hc with hc | hc
      · exact .inr hc
      · exact .inl (h.isDigit' c hc)

/-- There are digits and points in positional notation, and nothing else. -/
theorem not_mem_positional (d : Decimal) {c : Char} (hdigit : c.isDigit = false) (hpoint : c ≠ '.') :
    c ∉ d.positional := by
  obtain ⟨whole, places, h⟩ := d.exists_writes
  intro hc
  rcases h.mem_positional hc with hc | hc
  · rw [hdigit] at hc
    cases hc
  · exact hpoint hc

theorem split_positional (d : Decimal) :
    Piece.split d.positional = [Piece.token (.number d.toFloat) d.positional] := by
  obtain ⟨whole, places, h⟩ := d.exists_writes
  exact h.regular.split_alone

/-- A minus before a number is a piece of its own. -/
theorem split_minus_positional (d : Decimal) :
    Piece.split ('-' :: d.positional) =
      [Piece.token (.punctuator .minus) ['-'], Piece.token (.number d.toFloat) d.positional] := by
  have hfirst : Piece.first '-' d.positional = Piece.token (.punctuator .minus) ['-'] := by
    rw [Piece.first_symbol (q := .minus) rfl (fun h => absurd h (by decide))]
    cases decide (d.positional.head? = some '=') <;> rfl
  rw [Piece.split_cons, hfirst]
  apply congrArg (List.cons _)
  exact d.split_positional

theorem newlines_positional (d : Decimal) (kind : Kind) :
    (Piece.token kind d.positional).newlines = 0 :=
  List.count_eq_zero.mpr (d.not_mem_positional (by decide) (by decide))

theorem items_positional (d : Decimal) : Source.items (String.ofList d.positional) =
    [.ok ⟨.number d.toFloat, String.ofList d.positional, 1⟩, .ok (Token.endMark 1)] := by
  rw [Source.items, String.toList_ofList, split_positional, Source.itemsFrom, newlines_positional]
  rfl

theorem items_minus_positional (d : Decimal) :
    Source.items (String.ofList ('-' :: d.positional)) =
      [.ok ⟨.punctuator .minus, "-", 1⟩, .ok ⟨.number d.toFloat, String.ofList d.positional, 1⟩,
        .ok (Token.endMark 1)] := by
  have hminus : (Piece.token (.punctuator .minus) ['-']).newlines = 0 := rfl
  rw [Source.items, String.toList_ofList, split_minus_positional, Source.itemsFrom, hminus,
    Source.itemsFrom, newlines_positional]
  rfl

end Decimal

namespace Numeral

open Binary64 Grammar

variable {x y : Float} {n : Nat}

/-- Whether the sign of a number is set, as that of negative zero is. -/
def isNegative (x : Float) : Bool :=
  decide (2 ^ 63 ≤ x.toBits.toNat)

/-- The place of a finite number among the magnitudes. -/
def magnitude (x : Float) : Nat :=
  x.toBits.toNat % 2 ^ 63

/-- The decimal that a finite number is shown as, its sign apart. -/
def decimal (x : Float) : Decimal :=
  .shortest .upward (magnitude x)

section Texts

theorem magnitude_lt (hfinite : x.isFinite = true) : magnitude x < infinityPattern :=
  (isFinite_iff x).mp hfinite

theorem reading_of_finite (hfinite : x.isFinite = true) :
    Reading.of x = .finite (isNegative x) (magnitude x) := by
  simp only [Reading.of, Nat.pow_eq]
  exact if_pos (magnitude_lt hfinite)

theorem ofValue_eq (hfinite : x.isFinite = true) :
    ofValue x = signed (isNegative x) (decimal x).positional := by
  rw [ofValue, reading_of_finite hfinite]
  rfl

theorem toFloat_decimal (hfinite : x.isFinite = true) :
    (decimal x).toFloat = Float.ofBits (magnitude x).toUInt64 := by
  rw [Decimal.toFloat, decimal, Decimal.shortest_pattern .upward (magnitude_lt hfinite)]

/-- A number without a sign is that of its magnitude. -/
theorem ofBits_magnitude (hsign : isNegative x = false) :
    Float.ofBits (magnitude x).toUInt64 = x := by
  have hsmall : x.toBits.toNat < 2 ^ 63 := Nat.lt_of_not_le (of_decide_eq_false hsign)
  rw [magnitude, Nat.mod_eq_of_lt hsmall]
  exact ofBits_of_positive x

theorem toFloat_of_positive (hfinite : x.isFinite = true) (hsign : isNegative x = false) :
    (decimal x).toFloat = x := by
  rw [toFloat_decimal hfinite, ofBits_magnitude hsign]

theorem neg_toFloat_of_negative (hfinite : x.isFinite = true) (hsign : isNegative x = true) :
    -(decimal x).toFloat = x := by
  have hlarge : 2 ^ 63 ≤ x.toBits.toNat := of_decide_eq_true hsign
  have hbound := toNat_lt x
  have hmagnitude : magnitude x = x.toBits.toNat - 2 ^ 63 := by
    rw [magnitude]
    omega
  rw [toFloat_decimal hfinite, hmagnitude]
  exact neg_ofBits_of_negative hfinite hlarge

theorem units_of_whole? {pattern : Nat} (h : whole? pattern = some n) :
    unitsOfPattern pattern = n * unitsPerOne := by
  rw [whole?] at h
  split at h
  · next hdivides =>
    rw [← Option.some.inj h]
    exact (Nat.div_mul_cancel (Nat.dvd_of_mod_eq_zero hdivides)).symm
  · cases h

/-- Whole numbers below `10¹⁵` are shown by their digits alone. -/
theorem ofValue_whole (hfinite : x.isFinite = true) (hwhole : whole? (magnitude x) = some n)
    (hn : n < 10 ^ 15) : ofValue x = signed (isNegative x) (Decimal.digitsOf n) := by
  rw [ofValue_eq hfinite, decimal,
    Decimal.shortest_whole .upward (magnitude_lt hfinite) (units_of_whole? hwhole) (by omega)]

end Texts

section Scanning

/-- A number without a sign is one number token. -/
theorem items_of_positive (hfinite : x.isFinite = true) (hsign : isNegative x = false) :
    Source.items (ofValue x) =
      [.ok ⟨.number x, ofValue x, 1⟩, .ok (Token.endMark 1)] := by
  have htext : ofValue x = String.ofList (decimal x).positional := by
    rw [ofValue_eq hfinite, hsign]
    rfl
  rw [htext, Decimal.items_positional, toFloat_of_positive hfinite hsign]

/-- A number with a sign is a minus and the token of its magnitude. -/
theorem items_of_negative (hfinite : x.isFinite = true) (hsign : isNegative x = true) :
    Source.items (ofValue x) =
      [.ok ⟨.punctuator .minus, "-", 1⟩,
        .ok ⟨.number (decimal x).toFloat, String.ofList (decimal x).positional, 1⟩,
        .ok (Token.endMark 1)] := by
  have htext : ofValue x = String.ofList ('-' :: (decimal x).positional) := by
    rw [ofValue_eq hfinite, hsign]
    rfl
  rw [htext, Decimal.items_minus_positional]

end Scanning

section Reading

theorem phrase_number {t : Token} (ht : t.kind = .number y) (id : NodeId) :
    Phrase .primary id [t] (.literal (.number y)) id :=
  .constant (.number ht)

theorem parse_number {t : Token} (ht : t.kind = .number y) (line : Nat) (id : NodeId) :
    parseExpression [t, Token.endMark line] id = (.ok (.literal (.number y)), id) := by
  have hends : ∀ u ∈ [t], u.isEnd = false := by
    intro u hu
    rw [List.mem_singleton.mp hu, Token.isEnd, ht]
    rfl
  apply (parseExpression_eq_iff hends rfl).mpr
  exact (phrase_number ht id).loosen (Level.assignment_loosest _)

theorem parse_minus_number (y : Float) (lexeme : String) (id : NodeId) :
    parseExpression [⟨.punctuator .minus, "-", 1⟩, ⟨.number y, lexeme, 1⟩, Token.endMark 1] id =
      (.ok (.unary ⟨.punctuator .minus, "-", 1⟩ (.literal (.number y))), id) := by
  have hoperand : Phrase .unary id [⟨.number y, lexeme, 1⟩] (.literal (.number y)) id :=
    (phrase_number rfl id).loosen (by decide)
  have hnegated : Phrase .unary id [⟨.punctuator .minus, "-", 1⟩, ⟨.number y, lexeme, 1⟩]
      (.unary ⟨.punctuator .minus, "-", 1⟩ (.literal (.number y))) id :=
    .unary (.inr rfl) hoperand
  have hends : ∀ t ∈ [(⟨.punctuator .minus, "-", 1⟩ : Token), ⟨.number y, lexeme, 1⟩],
      t.isEnd = false := by
    intro t ht
    rcases List.mem_cons.mp ht with rfl | ht
    · rfl
    · rw [List.mem_singleton.mp ht]
      rfl
  apply (parseExpression_eq_iff hends rfl).mpr
  exact hnegated.loosen (Level.assignment_loosest _)

/-- The text of a number is an expression that stands for the number. -/
theorem parse_ofValue (hfinite : x.isFinite = true) (id : NodeId) :
    ∃ e, parseExpression (Source.tokens (ofValue x)) id = (.ok e, id) ∧
      ∀ fuel m, Run.evaluate .resolved fuel e m = (.ok (.literal (.number x)), m) := by
  cases hsign : isNegative x with
  | false =>
    have htokens : Source.tokens (ofValue x) = [⟨.number x, ofValue x, 1⟩, Token.endMark 1] := by
      rw [Source.tokens, items_of_positive hfinite hsign]
      rfl
    rw [htokens, parse_number rfl]
    exact ⟨_, rfl, fun fuel m => rfl⟩
  | true =>
    have htokens : Source.tokens (ofValue x) =
        [⟨.punctuator .minus, "-", 1⟩,
          ⟨.number (decimal x).toFloat, String.ofList (decimal x).positional, 1⟩,
          Token.endMark 1] := by
      rw [Source.tokens, items_of_negative hfinite hsign]
      rfl
    rw [htokens, parse_minus_number]
    refine ⟨_, rfl, ?_⟩
    intro fuel m
    have hneg := neg_toFloat_of_negative hfinite hsign
    generalize (decimal x).toFloat = y at hneg ⊢
    calc Run.evaluate .resolved fuel (.unary ⟨.punctuator .minus, "-", 1⟩ (.literal (.number y))) m
        = (.ok (.literal (.number (-y))), m) := rfl
      _ = (.ok (.literal (.number x)), m) := by rw [hneg]

/-- Different finite numbers have different texts. -/
theorem ofValue_inj (hx : x.isFinite = true) (hy : y.isFinite = true)
    (htext : ofValue x = ofValue y) : x = y := by
  obtain ⟨e, hparse, heval⟩ := parse_ofValue hx 0
  obtain ⟨e', hparse', heval'⟩ := parse_ofValue hy 0
  rw [htext, hparse'] at hparse
  have hsame : e' = e := Except.ok.inj (congrArg Prod.fst hparse)
  have hvalues := (heval 0 (Machine.initial .unlimited)).symm.trans
    (hsame ▸ heval' 0 (Machine.initial .unlimited))
  injection hvalues with hvalues
  injection hvalues with hvalues
  injection hvalues with hvalues
  injection hvalues

/-- What is printed or joined to a string of a number is its text, which loses nothing of it: the
text is scanned as one number token, after a minus if the sign is set, on line 1, and evaluating it
gives the number back, bit for bit. Whole numbers below `10¹⁵` have only their digits for a text. -/
theorem finite_reads_back (hfinite : x.isFinite = true) :
    (isNegative x = false →
      Source.items (Value.literal (.number x)).text =
        [.ok ⟨.number x, (Value.literal (.number x)).text, 1⟩, .ok (Token.endMark 1)]) ∧
    (isNegative x = true → ∃ y digits, (Value.literal (.number x)).text = "-" ++ digits ∧ -y = x ∧
      Source.items (Value.literal (.number x)).text =
        [.ok ⟨.punctuator .minus, "-", 1⟩, .ok ⟨.number y, digits, 1⟩, .ok (Token.endMark 1)]) ∧
    (∀ id, ∃ e, parseExpression (Source.tokens (Value.literal (.number x)).text) id = (.ok e, id) ∧
      ∀ fuel m, Run.evaluate .resolved fuel e m = (.ok (.literal (.number x)), m)) ∧
    (∀ y : Float, y.isFinite = true →
      (Value.literal (.number y)).text = (Value.literal (.number x)).text → y = x) ∧
    (∀ n, whole? (magnitude x) = some n → n < 10 ^ 15 →
      (Value.literal (.number x)).text = signed (isNegative x) (Decimal.digitsOf n)) ∧
    (∀ s, Operation.binary (.punctuator .plus) (.literal (.string s)) (.literal (.number x)) =
        .ok (.literal (.string (s ++ (Value.literal (.number x)).text))) ∧
      Operation.binary (.punctuator .plus) (.literal (.number x)) (.literal (.string s)) =
        .ok (.literal (.string ((Value.literal (.number x)).text ++ s)))) ∧
    (∀ fuel e m m', Run.evaluate .resolved fuel e m = (.ok (.literal (.number x)), m') →
      Run.execute .resolved fuel (.print e) m =
        (do Run.print ((Value.literal (.number x)).text ++ "\n"); return .normal : Run Flow) m') := by
  have htext : ∀ y : Float, (Value.literal (.number y)).text = ofValue y := fun _ => rfl
  simp only [htext]
  refine ⟨items_of_positive hfinite, ?_, parse_ofValue hfinite, ?_, ?_, ?_, ?_⟩
  · intro hsign
    refine ⟨(decimal x).toFloat, String.ofList (decimal x).positional, ?_,
      neg_toFloat_of_negative hfinite hsign, items_of_negative hfinite hsign⟩
    rw [ofValue_eq hfinite, hsign, signed, if_pos rfl, ← List.singleton_append, String.ofList_append]
  · intro y hy hsame
    exact ofValue_inj hy hfinite hsame
  · intro n hwhole hn
    exact ofValue_whole hfinite hwhole hn
  · intro s
    exact ⟨rfl, rfl⟩
  · intro fuel e m m' heval
    rw [Run.evaluate] at heval
    rw [Run.execute, Stmt.exec, Run.bind_apply, heval]
    rfl

/-- Zero with its sign set. -/
def negativeZero : Float :=
  Float.ofBits 0x8000000000000000

theorem finite_reads_back_negativeZero :
    negativeZero.isFinite = true ∧ isNegative negativeZero = true ∧
      (Value.literal (.number negativeZero)).text = "-0" ∧
      ∃ e, parseExpression (Source.tokens "-0") 0 = (.ok e, 0) ∧
        ∀ fuel m, Run.evaluate .resolved fuel e m = (.ok (.literal (.number negativeZero)), m) := by
  have hfinite : negativeZero.isFinite = true := by decide +kernel
  have hsign : isNegative negativeZero = true := by decide +kernel
  have hwhole : whole? (magnitude negativeZero) = some 0 := by decide +kernel
  obtain ⟨-, -, hread, -, hdigits, -⟩ := finite_reads_back hfinite
  have htext : (Value.literal (.number negativeZero)).text = "-0" := by
    rw [hdigits 0 hwhole (by decide), hsign]
    rfl
  rw [htext] at hread
  exact ⟨hfinite, hsign, htext, hread 0⟩

end Reading

end Numeral

end TreeWalk
