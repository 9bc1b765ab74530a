import Mathlib.Logic.ExistsUnique
import TreeWalk.Proofs.Indexed.ItemScan

/-! The images of pieces: what each kind of piece yields, said of its characters, and what both
scanners answer with, call after call. -/

namespace TreeWalk

namespace Piece

/-- What scanning yields for a piece that ends on the given line. Blanks and comments yield nothing.
A token has the text of its piece; a number has the value of its digits, a string what is between
the quotes. What is none of these is reported, an open string as well as a stray character. -/
inductive Image (line : Nat) : Piece → List ScanItem → Prop
  | blank (c : Char) : Image line (blank c) []
  | comment (body : List Char) : Image line (comment body) []
  | punctuator (p : Punctuator) : Image line (token (.punctuator p) p.spelling)
      [.ok ⟨.punctuator p, String.ofList p.spelling, line⟩]
  | whole (digits : List Char) (x : Float) (value : x = (Decimal.ofDigits digits []).toFloat) :
      Image line (token (.number x) digits) [.ok ⟨.number x, String.ofList digits, line⟩]
  | fractional (digits places : List Char) (x : Float)
      (value : x = (Decimal.ofDigits digits places).toFloat) :
      Image line (token (.number x) (digits ++ '.' :: places))
        [.ok ⟨.number x, String.ofList (digits ++ '.' :: places), line⟩]
  | keyword (k : Keyword) : Image line (token (.keyword k) k.spelling)
      [.ok ⟨.keyword k, String.ofList k.spelling, line⟩]
  | identifier (name : List Char) (h : ∀ k : Keyword, k.spelling ≠ name) :
      Image line (token .identifier name) [.ok ⟨.identifier, String.ofList name, line⟩]
  | string (body : List Char) :
      Image line (token (.string (String.ofList body)) ('"' :: body ++ ['"']))
        [.ok ⟨.string (String.ofList body), String.ofList ('"' :: body ++ ['"']), line⟩]
  | openString (body : List Char) (d : Diagnostic) (report : d = .lexical line .unterminatedString)
      (text : d.text = "[line " ++ Numeral.ofNat line ++ "] Error: " ++ "Unterminated string.") :
      Image line (openString body) [.error d]
  | stray (c : Char) (d : Diagnostic) (report : d = .lexical line (.strayCharacter c))
      (text : d.text = "[line " ++ Numeral.ofNat line ++ "] Error: " ++
        ("Unexpected character: " ++ String.ofList [c])) :
      Image line (stray c) [.error d]

/-- The images of pieces one after the other, from a line on, and the end mark behind them. A piece
ends as many lines down as there are line breaks in it. -/
inductive Images : Nat → List Piece → List ScanItem → Prop
  | done {line : Nat} : Images line [] [.ok ⟨.eof, "", line⟩]
  | piece {line : Nat} {p : Piece} {ps : List Piece} {items others : List ScanItem}
      (first : Image (line + p.chars.count '\n') p items)
      (rest : Images (line + p.chars.count '\n') ps others) :
      Images line (p :: ps) (items ++ others)

section Images

variable {line : Nat} {p : Piece} {ps : List Piece} {text : List Char} {items items' : List ScanItem}

theorem Image.eq_item? (h : Image line p items) : items = (p.item? line).toList := by
  cases h with
  | openString _ _ report | stray _ _ report =>
    rw [report]
    rfl
  | _ => rfl

theorem Images.unique (h : Images line ps items) (h' : Images line ps items') : items = items' := by
  induction h generalizing items' with
  | done =>
    cases h'
    rfl
  | piece first rest ih =>
    cases h' with
    | piece first' rest' => rw [first.eq_item?, first'.eq_item?, ih rest']

theorem Regular.image (h : p.Regular) (line : Nat) : Image line p (p.item? line).toList := by
  cases h with
  | blank c => exact .blank c
  | comment body => exact .comment body
  | punctuator p => exact .punctuator p
  | whole digits => exact .whole digits _ rfl
  | fractional digits places => exact .fractional digits places _ rfl
  | keyword k => exact .keyword k
  | identifier c cs _ _ h => exact .identifier (c :: cs) h
  | string body => exact .string body

/-- The text of a lexical report, by its message. -/
theorem text_lexical (line : Nat) (cause : LexicalCause) {message : String}
    (hmessage : cause.message = message) : (Diagnostic.lexical line cause).text =
      "[line " ++ Numeral.ofNat line ++ "] Error: " ++ message := by
  have hplace : "] Error" ++ "" ++ ": " = "] Error: " := by decide
  rw [Diagnostic.text, Diagnostic.located, hmessage, ← hplace]
  simp only [String.append_assoc]

/-- A piece that leads a text is regular, an open string or a stray character. -/
theorem Leads.image (h : Leads text p) (line : Nat) : Image line p (p.item? line).toList := by
  cases h with
  | regular h => exact h.regular.image line
  | openString none => exact .openString _ _ rfl (text_lexical line .unterminatedString rfl)
  | @stray c _ none h => exact .stray c _ rfl (text_lexical line (.strayCharacter c) rfl)

/-- The items of a cut are the images of its pieces. -/
theorem Cut.images (h : Cut text ps) (line : Nat) : Images line ps (Source.itemsFrom line ps) := by
  induction h generalizing line with
  | done => exact .done
  | piece nonempty leads others ih => exact .piece (leads.image _) (ih _)

end Images

end Piece

/-- Every source has exactly one longest-match cut, and its pieces have exactly one list of images.
Scanning yields these, one with each call, and nothing after them, whether it goes by pieces or
byte by byte. -/
theorem Scanner.answers_cut (source : String) :
    (∃! pieces, Piece.Cut source.toList pieces) ∧
      ∃ pieces items, Piece.Cut source.toList pieces ∧
        (∀ items', Piece.Images 1 pieces items' ↔ items' = items) ∧
        Source.items source = items ∧
        (∀ n, (ofSource source).answer n = items[n]?) ∧
        ∀ fuel n, 2 * (Source.bytes source).length < fuel →
          ∃ s, ByteScan.answer fuel n source .first = some (items[n]?, s) := by
  have hcut := Piece.cut_split source.toList
  have himages : Piece.Images 1 (Piece.split source.toList) (Source.items source) := hcut.images 1
  have hanswer : ∀ n, (ofSource source).answer n = (Source.items source)[n]? := by
    intro n
    rw [answer_eq_getElem?, remaining_ofSource]
  have hstart : (ofSource source).Abreast source [] source.toList .first :=
    ⟨rfl, rfl, fun h => absurd h Bool.false_ne_true, rfl, rfl, rfl⟩
  refine ⟨Piece.existsUnique_cut _, _, _, hcut, ?_, rfl, hanswer, ?_⟩
  · intro items'
    constructor
    · intro h
      exact h.unique himages
    · rintro rfl
      exact himages
  · intro fuel n hfuel
    obtain ⟨_, _, s, _, hrun, _⟩ := ByteScan.answer_abreast n hstart hfuel
    rw [hanswer] at hrun
    exact ⟨s, hrun⟩

end TreeWalk
