import TreeWalk.Proofs.Indexed.ByteClasses
import TreeWalk.Proofs.Indexed.Passing

/-! One step of a scanner of bytes takes one piece: it moves the cursor over the bytes of the piece
and counts its line breaks, each of them once. -/

namespace TreeWalk

open Source

namespace Piece

/-- The kind of the token that a piece is. -/
def kind? : Piece → Option Kind
  | token kind _ => some kind
  | _ => none

/-- What is reported of a piece that ends on the given line. -/
def scanned (line : Nat) : Piece → Except Diagnostic Unit
  | openString _ => .error (.lexical line .unterminatedString)
  | stray c => .error (.lexical line (.strayCharacter c))
  | _ => .ok ()

end Piece

namespace ByteCursor

/-- The cursor with a token found. -/
def finding (kind : Kind) (s : ByteCursor) : ByteCursor :=
  { s with pending := some kind }

/-- The cursor after a piece. -/
def past (p : Piece) (s : ByteCursor) : ByteCursor :=
  { s.across p.chars p.newlines with pending := p.kind? }

/-- The cursor stands before a piece that is not scanned yet. -/
structure Begins (source : String) (before rest : List Char) (s : ByteCursor) : Prop
    extends s.Stands source before rest where
  start : s.start = (encode before).length
  pending : s.pending = none

variable {s : ByteCursor} {text : List Char} {p : Piece}

theorem past_token (kind : Kind) (hline : '\n' ∉ text) :
    s.past (.token kind text) = (s.across text 0).finding kind := by
  have hnone : (Piece.token kind text).newlines = 0 := List.count_eq_zero.mpr hline
  rw [past, hnone]
  rfl

theorem past_silent (hpending : s.pending = none) (hkind : p.kind? = none) :
    s.past p = s.across p.chars p.newlines := by
  rw [past, hkind, ← hpending]
  rfl

end ByteCursor

namespace ByteScan

variable {source : String} {before text rest cs : List Char} {c : Char} {s : ByteCursor}
  {fuel : Nat}

section Numbers

/-- A point belongs to a number if a digit follows it. -/
theorem point_eq (rest : List Char) :
    (decide ((encode rest).headD 0 = '.'.toUInt8) && isDigit ((encode rest).tail.headD 0)) =
      !(Piece.fraction rest).isEmpty := by
  cases rest with
  | nil => rfl
  | cons d ds =>
    by_cases hd : d = '.'
    · subst hd
      rw [encode_cons_narrow (by decide), List.headD_cons, List.tail_cons, decide_eq_true rfl,
        Bool.true_and, reads_isDigit.headD_encode rfl, Piece.fraction]
      cases ds with
      | nil => rfl
      | cons e ds =>
        rw [List.head?_cons, Option.any_some, List.takeWhile_cons]
        cases e.isDigit <;> rfl
    · have hhead := (reads_eq (d := '.') (by decide)).headD_encode (by decide) (d :: ds)
      rw [List.head?_cons, Option.any_some, decide_eq_false hd] at hhead
      have hnone : Piece.fraction (d :: ds) = [] := by
        unfold Piece.fraction
        split
        · next h => exact absurd (List.cons_eq_cons.mp h).1 hd
        · rfl
      rw [hhead, hnone]
      rfl

/-- What follows a point that belongs to a number. -/
theorem fraction_eq_cons {places : List Char} {d : Char} (h : Piece.fraction rest = d :: places) :
    ∃ tail, rest = '.' :: tail ∧ tail.takeWhile Char.isDigit = d :: places := by
  unfold Piece.fraction at h
  split at h
  · exact ⟨_, rfl, h⟩
  · cases h

theorem not_mem_of_isDigit {digits : List Char} (h : ∀ d ∈ digits, d.isDigit = true) :
    '\n' ∉ digits := by
  intro hmem
  cases h _ hmem

theorem readNumber_run {d : Decimal} (h : s.Stands source (before ++ text) rest)
    (hstart : s.start = (encode before).length) (hread : Decimal.ofText? text = some d) :
    (do
      let d ← ofOption (Decimal.ofText? (← lexeme).toList)
      found (.number d.toFloat) : ByteScan Unit) source s =
        some ((), s.finding (.number d.toFloat)) := by
  rw [bind_of_some (lexeme_chars h hstart), String.toList_ofList, hread]
  rfl

theorem number_run (h : s.Begins source before (c :: cs)) (hc : c.isDigit = true)
    (hfuel : (bytes source).length < fuel) :
    number fuel source (s.across [c] 0) =
      some ((), s.past (Piece.number (c :: cs.takeWhile Char.isDigit)
        (cs.dropWhile Char.isDigit))) := by
  have hdigits : ∀ d ∈ c :: cs.takeWhile Char.isDigit, d.isDigit = true := by
    intro d hd
    rcases List.mem_cons.mp hd with rfl | hd
    · exact hc
    · exact List.mem_takeWhile_imp hd
  have hfirst : (s.across [c] 0).Stands source (before ++ [c]) cs := h.toStands.across 0
  have hpass := passWhile_more reads_isDigit rfl hfuel hfirst
  have hwhole := hfirst.run Char.isDigit
  generalize cs.takeWhile Char.isDigit = digits at *
  generalize cs.dropWhile Char.isDigit = rest at *
  rw [List.singleton_append] at hpass hwhole
  -- Behind the digits both look ahead by two characters, for a point and a digit after it.
  rw [number, bind_of_some hpass, bind_of_some (peek_run hwhole.left),
    bind_of_some (peekNext_run hwhole.left), point_eq, ite_run, Piece.number]
  cases hplaces : Piece.fraction rest with
  | nil =>
    rw [List.isEmpty_nil, Bool.not_true, if_neg Bool.false_ne_true, if_pos rfl,
      ByteCursor.past_token _ (not_mem_of_isDigit hdigits)]
    exact readNumber_run hwhole h.start (ofText?_whole (List.cons_ne_nil c digits) hdigits)
  | cons d places =>
    obtain ⟨tail, rfl, htail⟩ := fraction_eq_cons hplaces
    have hplaces' : ∀ e ∈ d :: places, e.isDigit = true := by
      intro e he
      rw [← htail] at he
      exact List.mem_takeWhile_imp he
    have hline : '\n' ∉ c :: digits ++ '.' :: d :: places := by
      intro hmem
      rcases List.mem_append.mp hmem with hmem | hmem
      · exact not_mem_of_isDigit hdigits hmem
      · rcases List.mem_cons.mp hmem with hmem | hmem
        · cases hmem
        · exact not_mem_of_isDigit hplaces' hmem
    have hpoint := advance_more (by decide) hwhole
    have hafter := hwhole.more ['.'] 0
    have hpass' := passWhile_more reads_isDigit rfl hfuel hafter
    have hend := hafter.run Char.isDigit
    rw [htail, List.append_assoc, List.singleton_append] at hpass' hend
    rw [List.isEmpty_cons, Bool.not_false, if_pos rfl, if_neg Bool.false_ne_true,
      ByteCursor.past_token _ hline, bind_of_some (discard_of_some hpoint), bind_of_some hpass']
    exact readNumber_run hend h.start (ofText?_fraction (List.cons_ne_nil c digits) hdigits
      (List.cons_ne_nil d places) hplaces')

end Numbers

section Words

theorem name_run (h : s.Begins source before (c :: cs)) (hc : Piece.isNameStart c = true)
    (hfuel : (bytes source).length < fuel) :
    name fuel source (s.across [c] 0) =
      some ((), s.past (.token (Piece.word (c :: cs.takeWhile Piece.isNamePart))
        (c :: cs.takeWhile Piece.isNamePart))) := by
  have hfirst : (s.across [c] 0).Stands source (before ++ [c]) cs := h.toStands.across 0
  have hpass := passWhile_more reads_isNamePart rfl hfuel hfirst
  have hwhole := hfirst.run Piece.isNamePart
  have hline : '\n' ∉ c :: cs.takeWhile Piece.isNamePart := by
    intro hmem
    rcases List.mem_cons.mp hmem with rfl | hmem
    · cases hc
    · cases List.mem_takeWhile_imp hmem
  generalize cs.takeWhile Piece.isNamePart = part at *
  rw [List.singleton_append] at hpass hwhole
  rw [name, bind_of_some hpass, bind_of_some (lexeme_chars hwhole h.start), String.toList_ofList,
    ByteCursor.past_token _ hline]
  rfl

/-- What is inside the quotes is cut out one byte after the first and one before the last. -/
theorem slice_quoted {body after : List Char}
    (hsource : source.toList = (before ++ ['"']) ++ body ++ ('"' :: after)) :
    slice? source ((encode before).length + 1)
      ((encode (before ++ (['"'] ++ body ++ ['"']))).length - 1) = some (String.ofList body) := by
  have hquote : (encode ['"']).length = 1 := rfl
  have hopen : (encode before).length + 1 = (encode (before ++ ['"'])).length := by
    rw [encode_append, List.length_append, hquote]
  have hclose : (encode (before ++ (['"'] ++ body ++ ['"']))).length - 1 =
      (encode ((before ++ ['"']) ++ body)).length := by
    simp only [encode_append, List.length_append, hquote]
    omega
  rw [hopen, hclose, slice?_encode hsource]

/-- A string goes on to the next quote. -/
theorem string_closed {body after : List Char}
    (h : s.Begins source before ('"' :: (body ++ '"' :: after)))
    (hbody : '"' ∉ body) (hfuel : (bytes source).length < fuel) :
    string fuel source (s.across ['"'] 0) =
      some (.ok (), s.past (.token (.string (String.ofList body)) ('"' :: body ++ ['"']))) := by
  have hfirst : (s.across ['"'] 0).Stands source (before ++ ['"']) (body ++ '"' :: after) :=
    h.toStands.across 0
  have hpass := passString_chars hfirst hfuel
  rw [takeWhile_ne_append hbody, ByteCursor.across_across] at hpass
  -- The cursor stops before the closing quote, and goes past it.
  have hin := hfirst.more body (body.count '\n')
  have hclose := advance_more (by decide) hin
  have hsource : source.toList = (before ++ ['"']) ++ body ++ ('"' :: after) := by
    rw [h.text, List.append_assoc, List.append_assoc, List.singleton_append]
  have hslice : slice? source
      ((s.across (['"'] ++ body ++ ['"']) (0 + body.count '\n')).start + 1)
      ((s.across (['"'] ++ body ++ ['"']) (0 + body.count '\n')).current - 1) =
        some (String.ofList body) := by
    have hcurrent : (s.across (['"'] ++ body ++ ['"']) (0 + body.count '\n')).current =
        (encode (before ++ (['"'] ++ body ++ ['"']))).length := (hin.more ['"'] 0).current
    rw [hcurrent, ← slice_quoted hsource, ← h.start]
    rfl
  have hlines : (Piece.token (.string (String.ofList body)) ('"' :: body ++ ['"'])).newlines =
      0 + body.count '\n' := by
    simp [Piece.newlines, Piece.chars]
  rw [string, bind_of_some hpass, bind_of_some (isAtEnd_chars hin), List.isEmpty_cons,
    if_neg Bool.false_ne_true, bind_of_some (discard_of_some hclose), get_bind,
    bind_of_some (slice_run hslice), ByteCursor.past, hlines]
  rfl

/-- Without another quote the string is open, and the cursor comes to the end. -/
theorem string_open (h : s.Begins source before ('"' :: cs)) (hopen : '"' ∉ cs)
    (hfuel : (bytes source).length < fuel) :
    string fuel source (s.across ['"'] 0) =
      some (.error (.lexical (s.line + (Piece.openString cs).newlines) .unterminatedString),
        s.past (.openString cs)) := by
  have hfirst : (s.across ['"'] 0).Stands source (before ++ ['"']) cs := h.toStands.across 0
  have hpass := passString_chars hfirst hfuel
  rw [takeWhile_ne_eq_self hopen, ByteCursor.across_across] at hpass
  have hend : (s.across (['"'] ++ cs) (0 + cs.count '\n')).Stands source
      (before ++ (['"'] ++ cs)) [] := by
    rw [← List.append_nil cs] at hfirst
    exact hfirst.more _ _
  have hlines : (Piece.openString cs).newlines = 0 + cs.count '\n' := by
    rw [Piece.newlines, Piece.chars, List.count_cons_of_ne (by decide), Nat.zero_add]
  rw [string, bind_of_some hpass, bind_of_some (isAtEnd_chars hend), List.isEmpty_nil, if_pos rfl,
    get_bind, ByteCursor.past_silent h.pending rfl, hlines]
  rfl

theorem string_run (h : s.Begins source before ('"' :: cs)) (hfuel : (bytes source).length < fuel) :
    string fuel source (s.across ['"'] 0) =
      some ((Piece.quoted cs).scanned (s.line + (Piece.quoted cs).newlines),
        s.past (Piece.quoted cs)) := by
  by_cases hclosed : '"' ∈ cs
  · obtain ⟨body, after, rfl, hbody⟩ := List.eq_append_cons_of_mem hclosed
    rw [Piece.quoted_closed after hbody]
    exact string_closed h hbody hfuel
  · rw [Piece.quoted_open hclosed]
    exact string_open h hclosed hfuel

end Words

theorem slice?_rest (h : s.Stands source before rest) :
    slice? source s.current (bytes source).length = some (String.ofList rest) := by
  have hsource : source.toList = before ++ rest ++ [] := by
    rw [h.text, List.append_nil]
  rw [← slice?_encode hsource, h.current, bytes_eq_encode, h.text]

theorem length_encode_singleton (c : Char) : (encode [c]).length = c.utf8Size := by
  rw [encode_cons, encode_nil, List.append_nil, String.length_utf8EncodeChar]

/-- What is no piece of any other kind is reported whole, however many bytes it has. -/
theorem stray_run (h : s.Begins source before (c :: cs)) (hline : c ≠ '\n') :
    stray source (s.forward 1 0) =
      some ((Piece.stray c).scanned (s.line + (Piece.stray c).newlines), s.past (.stray c)) := by
  -- Whatever the cursor stands in, the text is cut out from where the piece starts.
  have hslice : slice? source (s.forward 1 0).start (bytes source).length =
      some (String.ofList (c :: cs)) := by
    have hstart : (s.forward 1 0).start = s.current := h.start.trans h.current.symm
    rw [hstart, slice?_rest h.toStands]
  have hlines : (Piece.stray c).newlines = 0 := by
    rw [Piece.newlines, Piece.chars, List.count_singleton, beq_false_of_ne hline]
    rfl
  have hfirst : ofOption (String.ofList (c :: cs)).toList.head? source (s.forward 1 0) =
      some (c, s.forward 1 0) := by
    rw [String.toList_ofList]
    rfl
  have hover : s.across [c] 0 = { s with current := s.start + c.utf8Size } := by
    rw [ByteCursor.across, length_encode_singleton, ByteCursor.forward, h.current, ← h.start]
    rfl
  rw [stray, get_bind, bind_of_some (size_run source _), bind_of_some (slice_run hslice),
    bind_of_some hfirst, ByteCursor.past_silent h.pending rfl, hlines, Piece.chars, hover]
  rfl

/-- A step takes the piece: it moves the cursor past it and reports what there is to report. -/
def Takes (fuel : Nat) (source : String) (s : ByteCursor) (p : Piece) : Prop :=
  scanToken fuel source s = some (p.scanned (s.line + p.newlines), s.past p)

section Symbols

variable {p : Punctuator} {pair : Punctuator × Punctuator}

theorem not_mem_spelling (h : p.spelling = text) : '\n' ∉ text := by
  rw [← h]
  cases p <;> decide

theorem takes_single (h : s.Begins source before (c :: cs)) (hc : c.toNat < 128)
    (hsingle : single? c.toUInt8 = some p) : Takes fuel source s (Piece.first c cs) := by
  obtain ⟨hspelling, hslash, hfound⟩ := single?_eq_some hc hsingle
  have hcomment : c = '/' → cs.head? ≠ some '/' := by
    rintro rfl
    cases p <;> cases hspelling
    exact absurd rfl hslash
  have hfirst : Piece.first c cs = .token (.punctuator p) [c] := by
    rw [Piece.first_symbol hspelling hcomment, hfound, ← hspelling]
  rw [Takes, hfirst, ByteCursor.past_token _ (not_mem_spelling hspelling), scanToken,
    bind_of_some (advance_char h.toStands hc), hsingle]
  rfl

theorem takes_paired (h : s.Begins source before (c :: cs)) (hc : c.toNat < 128)
    (hsingle : single? c.toUInt8 = none) (hpaired : paired? c.toUInt8 = some pair) :
    Takes fuel source s (Piece.first c cs) := by
  obtain ⟨longer, shorter⟩ := pair
  obtain ⟨hspelling, hspelling', hslash⟩ := paired?_eq_some hc hpaired
  have hcomment : c = '/' → cs.head? ≠ some '/' := fun hsame => absurd hsame hslash
  have hstands : (s.across [c] 0).Stands source (before ++ [c]) cs := h.toStands.across 0
  rw [Takes, scanToken, bind_of_some (advance_char h.toStands hc), hsingle, hpaired]
  dsimp only
  by_cases hequal : cs.head? = some '='
  · obtain ⟨rest, rfl⟩ := List.head?_eq_some_iff.mp hequal
    have hfirst : Piece.first c ('=' :: rest) = .token (.punctuator longer) [c, '='] := by
      rw [Piece.first_symbol hspelling hcomment, decide_eq_true hequal,
        Piece.punctuator?_equal hspelling', ← hspelling']
    rw [bind_of_some (takes_char hstands (by decide)), ByteCursor.across_across, hfirst,
      ByteCursor.past_token _ (not_mem_spelling hspelling')]
    rfl
  · have hfirst : Piece.first c cs = .token (.punctuator shorter) [c] := by
      rw [Piece.first_symbol hspelling hcomment, decide_eq_false hequal,
        Piece.punctuator?_single hspelling, ← hspelling]
    rw [bind_of_some (takes_other hstands (by decide) hequal), hfirst,
      ByteCursor.past_token _ (not_mem_spelling hspelling)]
    rfl

theorem takes_slash (h : s.Begins source before ('/' :: cs)) :
    Takes fuel source s (Piece.first '/' cs) := by
  have hstands : (s.across ['/'] 0).Stands source (before ++ ['/']) cs := h.toStands.across 0
  have hsingle : single? '/'.toUInt8 = none := rfl
  have hpaired : paired? '/'.toUInt8 = none := rfl
  rw [Takes, scanToken, bind_of_some (advance_char h.toStands (by decide)), hsingle, hpaired]
  dsimp only
  rw [ite_run, if_neg (by decide), ite_run, if_neg (by decide), ite_run, if_pos rfl]
  by_cases hcomment : cs.head? = some '/'
  · obtain ⟨rest, rfl⟩ := List.head?_eq_some_iff.mp hcomment
    have hafter : (s.across ['/', '/'] 0).Stands source (before ++ ['/', '/']) rest :=
      hstands.more ['/'] 0
    -- A comment ends before the line break, which is left to be counted as a blank.
    have hline : '\n' ∉ '/' :: '/' :: rest.takeWhile (fun d => decide (d ≠ '\n')) := by
      intro hmem
      simp only [List.mem_cons, Char.reduceEq, false_or] at hmem
      have hne := List.mem_takeWhile_imp hmem
      exact absurd rfl (of_decide_eq_true hne)
    have hnone : (Piece.comment (rest.takeWhile fun d => decide (d ≠ '\n'))).newlines = 0 :=
      List.count_eq_zero.mpr hline
    rw [bind_of_some (takes_char hstands (by decide)), ByteCursor.across_across,
      Piece.first_slashes, if_pos rfl]
    dsimp only [List.singleton_append]
    rw [bind_of_some (passComment_chars hafter), ByteCursor.across_across,
      ByteCursor.past_silent h.pending rfl, hnone]
    rfl
  · have hfirst : Piece.first '/' cs = .token (.punctuator .slash) ['/'] := by
      rw [Piece.first_symbol (q := .slash) rfl (fun _ => hcomment)]
      cases decide (cs.head? = some '=') <;> rfl
    have hline : '\n' ∉ ['/'] := by decide
    rw [bind_of_some (takes_other hstands (by decide) hcomment), hfirst,
      ByteCursor.past_token _ hline]
    rfl

end Symbols

section Others

theorem takes_blank (h : s.Begins source before (c :: cs)) (hc : Piece.isBlank c = true) :
    Takes fuel source s (Piece.first c cs) := by
  have hcases : c = ' ' ∨ c = '\t' ∨ c = '\r' ∨ c = '\n' := by
    simpa [Piece.isBlank, or_assoc] using hc
  rw [Takes, Piece.first_blank hc, ByteCursor.past_silent h.pending rfl]
  rcases hcases with rfl | rfl | rfl | rfl <;>
    rw [scanToken, bind_of_some (advance_char h.toStands (by decide))] <;> rfl

theorem takes_quote (h : s.Begins source before ('"' :: cs))
    (hfuel : (bytes source).length < fuel) :
    Takes fuel source s (Piece.first '"' cs) := by
  have hsingle : single? '"'.toUInt8 = none := rfl
  have hpaired : paired? '"'.toUInt8 = none := rfl
  rw [Takes, Piece.first_quote, scanToken, bind_of_some (advance_char h.toStands (by decide)),
    hsingle, hpaired]
  exact string_run h hfuel

/-- The characters of the branches before the last ones, punctuators apart. -/
def reserved : List Char :=
  [' ', '\r', '\t', '\n', '/', '"']

theorem narrow_of_mem_reserved (h : c ∈ reserved) : c.toNat < 128 := by
  simp only [reserved, List.mem_cons, List.not_mem_nil, or_false] at h
  rcases h with rfl | rfl | rfl | rfl | rfl | rfl <;> decide

/-- The last branches of a step, for bytes that start no piece of the others. -/
theorem scanToken_plain {b : UInt8} (hadvance : advance source s = some (b, s.forward 1 0))
    (hsingle : single? b = none) (hpaired : paired? b = none)
    (hother : ∀ d ∈ reserved, b ≠ Char.toUInt8 d) :
    scanToken fuel source s =
      (if isDigit b then do
        number fuel
        return .ok ()
      else if isNameStart b then do
        name fuel
        return .ok ()
      else stray : ByteScan (Except Diagnostic Unit)) source (s.forward 1 0) := by
  have hblank : ¬ (decide (b = ' '.toUInt8) || decide (b = '\r'.toUInt8) ||
      decide (b = '\t'.toUInt8)) = true := by
    simp only [decide_eq_false (hother ' ' (by decide)), decide_eq_false (hother '\r' (by decide)),
      decide_eq_false (hother '\t' (by decide)), Bool.or_self, Bool.false_eq_true,
      not_false_eq_true]
  rw [scanToken, bind_of_some hadvance, hsingle, hpaired]
  dsimp only
  rw [ite_run, if_neg hblank, ite_run, if_neg (hother '\n' (by decide)), ite_run,
    if_neg (hother '/' (by decide)), ite_run, if_neg (hother '"' (by decide))]

/-- A narrow character that is left to the last branches. -/
structure Plain (c : Char) : Prop where
  narrow : c.toNat < 128
  unreserved : c ∉ reserved
  opens : ∀ p : Punctuator, p.spelling.head? ≠ some c

namespace Plain

theorem of_class {class_ : Char → Bool} (hc : class_ c = true) (hnarrow : c.toNat < 128)
    (hreserved : reserved.any class_ = false)
    (hopens : ∀ p : Punctuator, p.spelling.head?.any class_ = false) : Plain c where
  narrow := hnarrow
  unreserved hmem := List.any_eq_false.mp hreserved c hmem hc
  opens p hp := by
    have hnone := hopens p
    rw [hp, Option.any_some, hc] at hnone
    cases hnone

theorem single? (h : Plain c) : single? c.toUInt8 = none := by
  cases hsingle : ByteScan.single? c.toUInt8 with
  | none => rfl
  | some p =>
    apply absurd _ (h.opens p)
    rw [(single?_eq_some h.narrow hsingle).1]
    rfl

theorem paired? (h : Plain c) : paired? c.toUInt8 = none := by
  cases hpaired : ByteScan.paired? c.toUInt8 with
  | none => rfl
  | some pair =>
    apply absurd _ (h.opens pair.2)
    rw [(paired?_eq_some h.narrow hpaired).1]
    rfl

theorem ne_reserved (h : Plain c) : ∀ d ∈ reserved, c.toUInt8 ≠ Char.toUInt8 d := by
  intro d hd hsame
  rw [toUInt8_inj h.narrow (narrow_of_mem_reserved hd)] at hsame
  exact h.unreserved (hsame ▸ hd)

theorem scanToken (h : Plain c) (hbegins : s.Begins source before (c :: cs)) :
    scanToken fuel source s =
      (if isDigit c.toUInt8 then do
        number fuel
        return .ok ()
      else if isNameStart c.toUInt8 then do
        name fuel
        return .ok ()
      else stray : ByteScan (Except Diagnostic Unit)) source (s.across [c] 0) := by
  have hadvance := advance_char hbegins.toStands h.narrow
  rw [across_singleton h.narrow] at hadvance ⊢
  exact scanToken_plain hadvance h.single? h.paired? h.ne_reserved

end Plain

theorem takes_digit (h : s.Begins source before (c :: cs)) (hc : c.isDigit = true)
    (hfuel : (bytes source).length < fuel) : Takes fuel source s (Piece.first c cs) := by
  have hplain : Plain c := by
    apply Plain.of_class hc (reads_isDigit.narrow_of rfl hc) rfl
    intro p
    cases p <;> rfl
  have hbyte : isDigit c.toUInt8 = true := (reads_isDigit.narrow hplain.narrow).trans hc
  rw [Takes, Piece.first_digit hc, hplain.scanToken h, ite_run, if_pos hbyte,
    bind_of_some (number_run h hc hfuel)]
  rfl

theorem takes_name (h : s.Begins source before (c :: cs)) (hc : Piece.isNameStart c = true)
    (hfuel : (bytes source).length < fuel) : Takes fuel source s (Piece.first c cs) := by
  have hplain : Plain c := by
    apply Plain.of_class hc (reads_isNameStart.narrow_of rfl hc) rfl
    intro p
    cases p <;> rfl
  have hbyte : isNameStart c.toUInt8 = true := (reads_isNameStart.narrow hplain.narrow).trans hc
  have hdigit : ¬ isDigit c.toUInt8 = true := by
    rw [reads_isDigit.narrow hplain.narrow, Piece.isDigit_eq_false_of_isNameStart hc]
    exact Bool.false_ne_true
  rw [Takes, Piece.first_nameStart hc, hplain.scanToken h, ite_run, if_neg hdigit, ite_run,
    if_pos hbyte, bind_of_some (name_run h hc hfuel)]
  rfl

/-- A character that starts no other piece is one by itself. -/
theorem first_stray (hreserved : c ∉ reserved) (hdigit : c.isDigit = false)
    (hname : Piece.isNameStart c = false) (hopens : ∀ p : Punctuator, p.spelling.head? ≠ some c) :
    Piece.first c cs = .stray c := by
  have hnone : ∀ e, Piece.punctuator? c e = none := by
    intro e
    cases hp : Piece.punctuator? c e with
    | none => rfl
    | some p =>
      apply absurd _ (hopens p)
      rcases Piece.punctuator?_leads hp with h | ⟨-, h⟩ <;> rw [h] <;> rfl
  simp only [reserved, List.mem_cons, List.not_mem_nil, or_false, not_or] at hreserved
  obtain ⟨hspace, hreturn, htab, hline, hslash, hquote⟩ := hreserved
  simp [Piece.first, Piece.isBlank, hspace, hreturn, htab, hline, hslash, hquote, hdigit, hname,
    hnone]

theorem takes_narrow_stray (h : s.Begins source before (c :: cs)) (hplain : Plain c)
    (hdigit : c.isDigit = false) (hname : Piece.isNameStart c = false) (hline : c ≠ '\n') :
    Takes fuel source s (.stray c) := by
  have hdigit' : ¬ isDigit c.toUInt8 = true := by
    rw [reads_isDigit.narrow hplain.narrow, hdigit]
    exact Bool.false_ne_true
  have hname' : ¬ isNameStart c.toUInt8 = true := by
    rw [reads_isNameStart.narrow hplain.narrow, hname]
    exact Bool.false_ne_true
  rw [Takes, ← stray_run h hline, hplain.scanToken h, ite_run, if_neg hdigit', ite_run,
    if_neg hname', across_singleton hplain.narrow]

/-- The first byte of a wide character is like no narrow character. -/
theorem takes_wide_stray (h : s.Begins source before (c :: cs)) (hwide : 128 ≤ c.toNat)
    (hdigit : c.isDigit = false) (hname : Piece.isNameStart c = false) (hline : c ≠ '\n') :
    Takes fuel source s (.stray c) := by
  obtain ⟨b, hmem, bs, hbytes⟩ := exists_encode_cons c cs
  have hb : 128 ≤ b.toNat := le_of_mem_utf8EncodeChar hwide hmem
  have hadvance : advance source s = some (b, s.forward 1 0) := advance_run (hbytes ▸ h.left)
  have hdigit' : ¬ isDigit b = true := by
    rw [reads_isDigit.of_mem hmem, hdigit]
    exact Bool.false_ne_true
  have hname' : ¬ isNameStart b = true := by
    rw [reads_isNameStart.of_mem hmem, hname]
    exact Bool.false_ne_true
  have hother : ∀ d ∈ reserved, b ≠ Char.toUInt8 d := by
    rintro d hd rfl
    rw [toNat_toUInt8 (narrow_of_mem_reserved hd)] at hb
    exact absurd (narrow_of_mem_reserved hd) (Nat.not_lt.mpr hb)
  rw [Takes, ← stray_run h hline,
    scanToken_plain hadvance (single?_wide hb) (paired?_wide hb) hother, ite_run, if_neg hdigit',
    ite_run, if_neg hname']

theorem takes_stray (h : s.Begins source before (c :: cs)) (hreserved : c ∉ reserved)
    (hdigit : c.isDigit = false) (hname : Piece.isNameStart c = false)
    (hopens : ∀ p : Punctuator, p.spelling.head? ≠ some c) :
    Takes fuel source s (Piece.first c cs) := by
  have hline : c ≠ '\n' := by
    rintro rfl
    exact hreserved (by decide)
  rw [first_stray hreserved hdigit hname hopens]
  rcases Nat.lt_or_ge c.toNat 128 with hnarrow | hwide
  · exact takes_narrow_stray h ⟨hnarrow, hreserved, hopens⟩ hdigit hname hline
  · exact takes_wide_stray h hwide hdigit hname hline

end Others

/-- Each step takes the piece that the rest of the source starts with. -/
theorem takes_first (h : s.Begins source before (c :: cs)) (hfuel : (bytes source).length < fuel) :
    Takes fuel source s (Piece.first c cs) := by
  by_cases hblank : Piece.isBlank c = true
  · exact takes_blank h hblank
  by_cases hslash : c = '/'
  · subst hslash
    exact takes_slash h
  by_cases hquote : c = '"'
  · subst hquote
    exact takes_quote h hfuel
  by_cases hdigit : c.isDigit = true
  · exact takes_digit h hdigit hfuel
  by_cases hname : Piece.isNameStart c = true
  · exact takes_name h hname hfuel
  have hreserved : c ∉ reserved := by
    intro hmem
    simp only [reserved, List.mem_cons, List.not_mem_nil, or_false] at hmem
    rcases hmem with rfl | rfl | rfl | rfl | rfl | rfl
    all_goals first | exact hblank rfl | exact hslash rfl | exact hquote rfl
  -- A character that opens a punctuator is found by its byte in one of the two tables.
  by_cases hopens : ∃ p : Punctuator, p.spelling.head? = some c
  · obtain ⟨p, hp⟩ := hopens
    have hnarrow : c.toNat < 128 := by cases p <;> cases hp <;> decide
    cases hsingle : single? c.toUInt8 with
    | some q => exact takes_single h hnarrow hsingle
    | none =>
      cases hpaired : paired? c.toUInt8 with
      | some pair => exact takes_paired h hnarrow hsingle hpaired
      | none =>
        have hbyte : c.toUInt8 ≠ '/'.toUInt8 := by
          rw [Ne, toUInt8_inj hnarrow (by decide)]
          exact hslash
        exact absurd ((opening_eq_iff hnarrow).mpr hp) (opened hsingle hpaired hbyte)
  · exact takes_stray h hreserved (eq_false_of_ne_true hdigit) (eq_false_of_ne_true hname)
      (not_exists.mp hopens)

end ByteScan

end TreeWalk
