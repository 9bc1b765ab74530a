import TreeWalk.Proofs.Indexed.PieceScan
import TreeWalk.Proofs.Source.Seam

/-! A scanner of bytes yields the items of a scanner of pieces, one for one. Each item ends where
the cursor stands after it, and has the line that the cursor has there. -/

namespace TreeWalk

open Source

/-- The item ends where the text before the cursor does, and its line is one more than the line
breaks of that text. The end mark leaves the cursor one past the end. -/
inductive ScanItem.Ends (before rest : List Char) : Nat → ScanItem → Prop
  | token {kind text} (hkind : kind ≠ .eof) (hends : text <:+ before) :
      Ends before rest (encode before).length
        (.ok ⟨kind, String.ofList text, 1 + before.count '\n'⟩)
  | endMark (hends : rest = []) :
      Ends before rest ((encode before).length + 1) (.ok (Token.endMark (1 + before.count '\n')))
  | openString (hends : rest = []) :
      Ends before rest (encode before).length
        (.error (.lexical (1 + before.count '\n') .unterminatedString))
  | stray {c} (hends : [c] <:+ before) :
      Ends before rest (encode before).length
        (.error (.lexical (1 + before.count '\n') (.strayCharacter c)))

/-- The two scanners are at one place of the source, and have counted its lines up to there. -/
structure Scanner.Abreast (source : String) (before rest : List Char) (s : ByteCursor)
    (scanner : Scanner) : Prop where
  text : source.toList = before ++ rest
  current : s.current = (encode before).length + if scanner.ended then 1 else 0
  ended : scanner.ended = true → rest = []
  pieces : scanner.pieces = Piece.split rest
  line : scanner.line = s.line
  counted : s.line = 1 + before.count '\n'

namespace Scanner.Abreast

variable {source : String} {before rest : List Char} {s : ByteCursor} {scanner : Scanner}

theorem stands (h : scanner.Abreast source before rest s) (hended : ¬ scanner.ended = true) :
    s.Stands source before rest := by
  refine ⟨h.text, ?_⟩
  rw [h.current, if_neg hended, Nat.add_zero]

theorem past_end (h : scanner.Abreast source before rest s) (hended : scanner.ended = true) :
    (bytes source).length < s.current := by
  rw [h.current, hended, bytes_eq_encode, h.text, h.ended hended, List.append_nil]
  exact Nat.lt_succ_self _

theorem current_le (h : scanner.Abreast source before rest s) :
    s.current ≤ (bytes source).length + 1 := by
  have hbefore : (encode before).length ≤ (bytes source).length := by
    rw [bytes_eq_encode, h.text, encode_append, List.length_append]
    exact Nat.le_add_right _ _
  rw [h.current]
  split <;> omega

end Scanner.Abreast

namespace Piece

variable {c : Char} {cs : List Char}

/-- An open string reaches to the end. -/
theorem openString_eq {body : List Char} (h : first c cs = openString body) :
    c = '"' ∧ cs = body := by
  rcases first_cases c cs with hregular | ⟨hquote, hopen⟩ | ⟨-, hstray⟩
  · rw [h] at hregular
    cases hregular
  · rw [h] at hopen
    exact ⟨hquote, (openString.inj hopen).symm⟩
  · rw [h] at hstray
    cases hstray

theorem kind_first_ne_eof {kind : Kind} {text : List Char} (h : first c cs = token kind text) :
    kind ≠ .eof := by
  have hmem : token kind text ∈ split (c :: cs) := by
    rw [split_cons, h]
    exact List.mem_cons_self
  exact (cut_split (c :: cs)).kind_ne_eof hmem

/-- The item of a piece ends where the piece does. -/
theorem ends_of_item? {p : Piece} {before after : List Char} {item : ScanItem}
    (hfirst : first c cs = p) (hchars : c :: cs = p.chars ++ after)
    (hitem : p.item? (1 + (before ++ p.chars).count '\n') = some item) :
    item.Ends (before ++ p.chars) after (encode (before ++ p.chars)).length := by
  cases p with
  | blank d => cases hitem
  | comment body => cases hitem
  | token kind text =>
    cases hitem
    exact .token (kind_first_ne_eof hfirst) (List.suffix_append before text)
  | openString body =>
    cases hitem
    obtain ⟨rfl, rfl⟩ := openString_eq hfirst
    have hnone : after = [] := List.append_right_eq_self.mp hchars.symm
    exact .openString hnone
  | stray d =>
    cases hitem
    exact .stray (List.suffix_append before [d])

/-- A text is cut into the piece that it starts with and the pieces of what is left. -/
theorem exists_split_first (c : Char) (cs : List Char) :
    ∃ after, c :: cs = (first c cs).chars ++ after ∧ split (c :: cs) = first c cs :: split after ∧
      after.length ≤ cs.length := by
  obtain ⟨after, hafter⟩ := first_chars_isPrefix c cs
  have hpositive : 0 < (first c cs).chars.length :=
    List.length_pos_iff.mpr (first_chars_ne_nil c cs)
  refine ⟨after, hafter.symm, ?_, ?_⟩
  · rw [split_cons, ← hafter, List.drop_left]
  · have hlength := congrArg List.length hafter
    rw [List.length_append, List.length_cons] at hlength
    omega

end Piece

namespace ByteScan

variable {source : String} {before rest : List Char} {s : ByteCursor} {fuel : Nat}

theorem stands_past {p : Piece} {after : List Char}
    (h : s.Stands source before (p.chars ++ after)) :
    (s.past p).Stands source (before ++ p.chars) after :=
  ⟨(h.across 0).text, (h.across 0).current⟩

/-- The text of a piece is what is between the cursor before it and the one after it. -/
theorem slice?_past {p : Piece} {after : List Char}
    (h : s.Stands source before (p.chars ++ after)) :
    slice? source s.current (s.past p).current = some (String.ofList p.chars) := by
  rw [(stands_past h).current, h.current]
  apply slice?_encode
  rw [h.text, List.append_assoc]

/-- The outcome of a call: the item that a scanner of pieces advances to, and a cursor that is
abreast of it. -/
def Yields (source : String) (before rest : List Char)
    (outcome : Option (Option ScanItem × ByteCursor)) (advanced : ScanItem × Scanner) : Prop :=
  ∃ taken after s', rest = taken ++ after ∧ outcome = some (some advanced.1, s') ∧
    advanced.2.Abreast source (before ++ taken) after s' ∧
      advanced.1.Ends (before ++ taken) after s'.current

theorem Yields.further {text : List Char} {outcome : Option (Option ScanItem × ByteCursor)}
    {advanced : ScanItem × Scanner} (h : Yields source (before ++ text) rest outcome advanced) :
    Yields source before (text ++ rest) outcome advanced := by
  obtain ⟨taken, after, s', rfl, houtcome, habreast, hends⟩ := h
  rw [List.append_assoc] at habreast hends
  exact ⟨text ++ taken, after, s', (List.append_assoc _ _ _).symm, houtcome, habreast, hends⟩

/-- The cursor at the start of a step, with nothing found yet. -/
def starting (s : ByteCursor) : ByteCursor :=
  { s with start := s.current, pending := none }

theorem begins_starting (h : s.Stands source before rest) :
    (starting s).Begins source before rest :=
  ⟨⟨h.text, h.current⟩, h.current, rfl⟩

/-- The cursor after an item is taken. -/
def settled (s : ByteCursor) : ByteCursor :=
  { s with pending := none }

theorem next_end (hend : s.current = (bytes source).length) :
    next (fuel + 1) source s =
      some (some (.ok (Token.endMark s.line)), { s with current := s.current + 1 }) := by
  have hinside : ¬ (bytes source).length < s.current := by omega
  rw [next, get_bind, bind_of_some (size_run source s), ite_run, if_neg hinside, ite_run,
    if_pos hend, hend]
  rfl

/-- Past the end there are no items any more, and the cursor stays where it is. -/
theorem next_ended (hover : (bytes source).length < s.current) :
    next (fuel + 1) source s = some (none, s) := by
  rw [next, get_bind, bind_of_some (size_run source s), ite_run, if_pos hover]
  rfl

/-- What a call does after a step: it gives the item that there is, or goes on. -/
def conclude (fuel : Nat) : Except Diagnostic Unit → ByteScan (Option ScanItem)
  | .error d => return some (.error d)
  | .ok () => do
    match (← get).pending with
    | some kind =>
      modify fun s => { s with pending := none }
      return some (.ok ⟨kind, ← lexeme, (← get).line⟩)
    | none => next fuel

theorem conclude_error (d : Diagnostic) :
    conclude fuel (.error d) source s = some (some (.error d), s) :=
  rfl

/-- A token that is pending is the answer, with the text that the step took. -/
theorem conclude_found {kind : Kind} {text : String} (hpending : s.pending = some kind)
    (htext : slice? source s.start s.current = some text) :
    conclude fuel (.ok ()) source s = some (some (.ok ⟨kind, text, s.line⟩), settled s) := by
  have hmodify : (modify fun s => { s with pending := none } : ByteScan PUnit) source s =
      some (.unit, settled s) := rfl
  have hlexeme : lexeme source (settled s) = some (text, settled s) := slice_run htext
  rw [conclude, get_bind, hpending]
  dsimp only
  rw [bind_of_some hmodify, bind_of_some hlexeme]
  rfl

theorem conclude_silent (hpending : s.pending = none) :
    conclude fuel (.ok ()) source s = next fuel source s := by
  rw [conclude, get_bind, hpending]

/-- Before the end a call starts with a step. -/
theorem next_inside (hinside : s.current < (bytes source).length) :
    next (fuel + 1) source s = (scanToken fuel >>= conclude fuel) source (starting s) := by
  have hnotOver : ¬ (bytes source).length < s.current := by omega
  have hnotEnd : s.current ≠ (bytes source).length := by omega
  have hset : (set { s with start := s.current, pending := none } : ByteScan PUnit) source s =
      some (.unit, starting s) := rfl
  rw [next, get_bind, bind_of_some (size_run source s), ite_run, if_neg hnotOver, ite_run,
    if_neg hnotEnd]
  exact bind_of_some hset

/-- A call takes a step, and goes on if there is no item in what the step takes. -/
theorem next_step {c : Char} {cs after : List Char} (h : s.Stands source before (c :: cs))
    (hchars : c :: cs = (Piece.first c cs).chars ++ after) (hfuel : (bytes source).length < fuel) :
    next (fuel + 1) source s =
      match (Piece.first c cs).item? (s.line + (Piece.first c cs).newlines) with
      | some item => some (some item, settled ((starting s).past (Piece.first c cs)))
      | none => next fuel source ((starting s).past (Piece.first c cs)) := by
  have hbegins := begins_starting h
  have htakes : Takes fuel source (starting s) (Piece.first c cs) := takes_first hbegins hfuel
  have htext := slice?_past (hchars ▸ hbegins.toStands)
  rw [next_inside h.inside, bind_of_some htakes]
  -- A piece has an item where something is pending after it or it is reported, and nowhere else.
  generalize Piece.first c cs = p at *
  cases p with
  | blank d => exact conclude_silent rfl
  | comment body => exact conclude_silent rfl
  | token kind text => exact conclude_found rfl htext
  | openString body => rfl
  | stray d => rfl

/-- A call goes over the pieces without an item to the next one that has one. -/
theorem next_run (h : s.Stands source before rest) (hcounted : s.line = 1 + before.count '\n')
    (hfuel : (bytes source).length + rest.length < fuel) :
    Yields source before rest (next fuel source s)
      (Scanner.advance s.line (Piece.split rest)) := by
  -- Each step takes at least one character off the rest, which the fuel is enough for.
  induction fuel generalizing before rest s with
  | zero => exact absurd hfuel (Nat.not_lt_zero _)
  | succ fuel ih =>
    cases rest with
    | nil =>
      rw [next_end h.at_end]
      refine ⟨[], [], { s with current := s.current + 1 }, rfl, rfl, ?_, ?_⟩
      · rw [List.append_nil]
        exact ⟨h.text, congrArg Nat.succ h.current, fun _ => rfl, rfl, rfl, hcounted⟩
      · rw [List.append_nil, h.current, hcounted]
        exact .endMark rfl
    | cons c cs =>
      obtain ⟨after, hchars, hsplit, hlength⟩ := Piece.exists_split_first c cs
      rw [List.length_cons] at hfuel
      rw [next_step h hchars (by omega), hsplit, Scanner.advance, hchars]
      generalize hfirst : Piece.first c cs = p at *
      have hstands : ((starting s).past p).Stands source (before ++ p.chars) after :=
        stands_past ⟨hchars ▸ h.text, h.current⟩
      have hlines : s.line + p.newlines = 1 + (before ++ p.chars).count '\n' := by
        rw [hcounted, List.count_append, Piece.newlines, Nat.add_assoc]
      cases hitem : p.item? (s.line + p.newlines) with
      | none => exact (ih hstands hlines (by omega)).further
      | some item =>
        refine ⟨p.chars, after, settled ((starting s).past p), rfl, rfl, ?_, ?_⟩
        · exact ⟨hstands.text, hstands.current, fun h => absurd h Bool.false_ne_true, rfl, rfl,
            hlines⟩
        · have hcurrent : (settled ((starting s).past p)).current =
              (encode (before ++ p.chars)).length := hstands.current
          rw [hlines] at hitem
          rw [hcurrent]
          exact Piece.ends_of_item? hfirst hchars hitem

section Calls

variable {scanner : Scanner}

/-- One call keeps the two scanners abreast. -/
theorem next_abreast (h : scanner.Abreast source before rest s)
    (hfuel : 2 * (bytes source).length < fuel) :
    ∃ taken after s', rest = taken ++ after ∧ next fuel source s = some (scanner.next.1, s') ∧
      scanner.next.2.Abreast source (before ++ taken) after s' ∧
        ∀ item, scanner.next.1 = some item → item.Ends (before ++ taken) after s'.current := by
  by_cases hended : scanner.ended = true
  · have hnext : scanner.next = (none, scanner) := if_pos hended
    obtain ⟨fuel, rfl⟩ := Nat.exists_eq_succ_of_ne_zero (Nat.ne_zero_of_lt hfuel)
    refine ⟨[], rest, s, rfl, ?_, ?_, ?_⟩
    · rw [next_ended (h.past_end hended), hnext]
    · rw [List.append_nil, hnext]
      exact h
    · rw [hnext]
      intro item hitem
      cases hitem
  · have hstands := h.stands hended
    have hlength : rest.length ≤ (bytes source).length :=
      (length_le_encode rest).trans hstands.length_le
    have hpieces : (bytes source).length + rest.length < fuel := by omega
    obtain ⟨taken, after, s', hrest, hrun, habreast, hends⟩ := next_run hstands h.counted hpieces
    have hnext : scanner.next = (some (Scanner.advance s.line (Piece.split rest)).1,
        (Scanner.advance s.line (Piece.split rest)).2) := by
      rw [Scanner.next, if_neg hended, h.pieces, h.line]
    refine ⟨taken, after, s', hrest, ?_, ?_, ?_⟩
    · rw [hrun, hnext]
    · rw [hnext]
      exact habreast
    · rw [hnext]
      intro item hitem
      rw [← Option.some.inj hitem]
      exact hends

/-- Call after call. -/
theorem answer_abreast (n : Nat) (h : scanner.Abreast source before rest s)
    (hfuel : 2 * (bytes source).length < fuel) :
    ∃ taken after s', rest = taken ++ after ∧
      answer fuel n source s = some (scanner.answer n, s') ∧
        ∀ item, scanner.answer n = some item → item.Ends (before ++ taken) after s'.current := by
  induction n generalizing before rest s scanner with
  | zero =>
    obtain ⟨taken, after, s', hrest, hrun, -, hends⟩ := next_abreast h hfuel
    exact ⟨taken, after, s', hrest, hrun, hends⟩
  | succ n ih =>
    obtain ⟨taken, after, s', rfl, hrun, habreast, -⟩ := next_abreast h hfuel
    obtain ⟨taken', after', s'', rfl, hrun', hends⟩ := ih habreast
    refine ⟨taken ++ taken', after', s'', (List.append_assoc _ _ _).symm, ?_, ?_⟩
    · rw [answer, bind_of_some (discard_of_some hrun)]
      exact hrun'
    · rw [← List.append_assoc]
      exact hends

end Calls

end ByteScan

section Lines

/-- The line that an item is on. -/
def ScanItem.line? : ScanItem → Option Nat
  | .ok t => some t.line
  | .error d => d.line?

namespace Scanner

variable {scanner : Scanner} {item item' : ScanItem}

theorem line?_advance (line : Nat) (ps : List Piece) :
    (advance line ps).1.line? = some (advance line ps).2.line ∧
      line ≤ (advance line ps).2.line := by
  induction ps generalizing line with
  | nil => exact ⟨rfl, Nat.le_refl line⟩
  | cons p ps ih =>
    have hdown : line ≤ line + p.newlines := Nat.le_add_right _ _
    rw [advance]
    cases hitem : p.item? (line + p.newlines) with
    | none => exact ⟨(ih _).1, hdown.trans (ih _).2⟩
    | some item =>
      refine ⟨?_, hdown⟩
      cases p <;> cases hitem <;> rfl

theorem line_le_next (scanner : Scanner) : scanner.line ≤ scanner.next.2.line := by
  rw [next]
  split
  · exact Nat.le_refl _
  · exact (line?_advance scanner.line scanner.pieces).2

theorem line?_next (h : scanner.next.1 = some item) : item.line? = some scanner.next.2.line := by
  rw [next] at h ⊢
  split at h
  · cases h
  · next hended =>
    rw [if_neg hended, ← Option.some.inj h]
    exact (line?_advance scanner.line scanner.pieces).1

/-- All items still to come are on the line of the scanner or below it. -/
theorem exists_line_answer {n : Nat} (h : scanner.answer n = some item) :
    ∃ line, item.line? = some line ∧ scanner.line ≤ line := by
  induction n generalizing scanner with
  | zero => exact ⟨_, line?_next h, line_le_next scanner⟩
  | succ n ih =>
    obtain ⟨line, hline, hle⟩ := ih h
    exact ⟨line, hline, (line_le_next scanner).trans hle⟩

/-- No item is on a line above that of an item before it. -/
theorem lines_ordered {i j : Nat} (hij : i ≤ j) (h : scanner.answer i = some item)
    (h' : scanner.answer j = some item') :
    ∃ line line', item.line? = some line ∧ item'.line? = some line' ∧ line ≤ line' := by
  induction i generalizing scanner j with
  | zero =>
    have hline := line?_next h
    cases j with
    | zero =>
      obtain rfl : item = item' := Option.some.inj (h.symm.trans h')
      exact ⟨_, _, hline, hline, Nat.le_refl _⟩
    | succ j =>
      have hlater : scanner.next.2.answer j = some item' := h'
      obtain ⟨line', hline', hle⟩ := exists_line_answer hlater
      exact ⟨_, line', hline, hline', hle⟩
  | succ i ih =>
    cases j with
    | zero => exact absurd hij (Nat.not_succ_le_zero i)
    | succ j => exact ih (Nat.le_of_succ_le_succ hij) h h'

end Scanner

/-- Line numbers are exact. Scanned byte by byte, with line breaks counted where the cursor passes
them, a source yields the same items as scanned by pieces. Each item's line is one more than the
line breaks before the place where the cursor stands after it: the end of a token or of a stray
character, the end of the source for an open string and for the end mark. So lines never go up. -/
theorem lines_exact (source : String) :
    (∀ fuel n, 2 * (bytes source).length < fuel →
      ∃ before rest s, source.toList = before ++ rest ∧
        ByteScan.answer fuel n source .first = some ((Scanner.ofSource source).answer n, s) ∧
          ∀ item, (Scanner.ofSource source).answer n = some item →
            item.Ends before rest s.current) ∧
    ∀ i j item item', i ≤ j → (Scanner.ofSource source).answer i = some item →
      (Scanner.ofSource source).answer j = some item' →
        ∃ line line', item.line? = some line ∧ item'.line? = some line' ∧ line ≤ line' := by
  constructor
  · intro fuel n hfuel
    have hstart : (Scanner.ofSource source).Abreast source [] source.toList .first :=
      ⟨rfl, rfl, fun h => absurd h Bool.false_ne_true, rfl, rfl, rfl⟩
    obtain ⟨before, rest, s, htext, hrun, hends⟩ := ByteScan.answer_abreast n hstart hfuel
    exact ⟨before, rest, s, htext, hrun, hends⟩
  · intro i j item item' hij h h'
    exact Scanner.lines_ordered hij h h'

end Lines

end TreeWalk
