import TreeWalk.Proofs.Source.Scanning
import TreeWalk.Proofs.Syntax.Shift

/-! Scanning two texts with a line break between them: unless the first one ends inside a string, it
is as if each was scanned by itself. -/

namespace TreeWalk

namespace Piece

section Seam

variable {c : Char} {cs rest : List Char} {p : Piece} {class_ : Char → Bool}

theorem takeWhile_seam (h : class_ '\n' = false) :
    (cs ++ '\n' :: rest).takeWhile class_ = cs.takeWhile class_ := by
  induction cs with
  | nil => simp [h]
  | cons d cs ih => rw [List.cons_append, List.takeWhile_cons, List.takeWhile_cons, ih]

theorem dropWhile_seam (h : class_ '\n' = false) :
    (cs ++ '\n' :: rest).dropWhile class_ = cs.dropWhile class_ ++ '\n' :: rest := by
  induction cs with
  | nil => simp [h]
  | cons d cs ih =>
    rw [List.cons_append, List.dropWhile_cons, List.dropWhile_cons, ih]
    split <;> rfl

theorem head?_seam {d : Char} (h : d ≠ '\n') :
    (cs ++ '\n' :: rest).head? = some d ↔ cs.head? = some d := by
  cases cs with
  | nil => simp [Ne.symm h]
  | cons e cs => simp

theorem fraction_seam : fraction (cs ++ '\n' :: rest) = fraction cs := by
  match cs with
  | [] => rfl
  | e :: cs =>
    by_cases he : e = '.'
    · subst he
      exact takeWhile_seam (by decide)
    · rw [List.cons_append]
      unfold fraction
      split
      · next h => exact absurd (List.cons_eq_cons.mp h).1 he
      · split
        · next h => exact absurd (List.cons_eq_cons.mp h).1 he
        · rfl

theorem number_seam (digits : List Char) :
    number digits (cs ++ '\n' :: rest) = number digits cs := by
  rw [number, number, fraction_seam]

/-- A line break ends every piece that could go on but a string. -/
theorem first_seam (h : first c cs ≠ openString cs) :
    first c (cs ++ '\n' :: rest) = first c cs := by
  have hslash : ((cs ++ '\n' :: rest).head? = some '/') ↔ cs.head? = some '/' :=
    head?_seam (by decide)
  have hequal : ((cs ++ '\n' :: rest).head? = some '=') ↔ cs.head? = some '=' :=
    head?_seam (by decide)
  have hquoted : c = '"' → quoted (cs ++ '\n' :: rest) = quoted cs := by
    rintro rfl
    by_cases hclosed : '"' ∈ cs
    · obtain ⟨body, others, rfl, hbody⟩ := List.eq_append_cons_of_mem hclosed
      rw [List.append_assoc, List.cons_append, quoted_closed _ hbody, quoted_closed _ hbody]
    · exact absurd (quoted_open hclosed) h
  have hcomment : cs.head? = some '/' → (cs ++ '\n' :: rest).tail.takeWhile (· ≠ '\n') =
      cs.tail.takeWhile (· ≠ '\n') := by
    intro hcs
    obtain ⟨cs, rfl⟩ := List.head?_eq_some_iff.mp hcs
    exact takeWhile_seam (by decide)
  unfold first
  simp only [hslash, hequal, takeWhile_seam (show Char.isDigit '\n' = false by decide),
    dropWhile_seam (show Char.isDigit '\n' = false by decide),
    takeWhile_seam (show isNamePart '\n' = false by decide), number_seam]
  split_ifs with hblank hslashes hquote hdigit hname
  · rfl
  · simp only [Bool.and_eq_true, decide_eq_true_eq] at hslashes
    rw [hcomment hslashes.2]
  · exact hquoted hquote
  · rfl
  · rfl
  · rfl

theorem split_newline (cs : List Char) : split ('\n' :: cs) = blank '\n' :: split cs := by
  have hfirst : first '\n' cs = blank '\n' := first_blank (by decide)
  rw [split_cons, hfirst]
  rfl

/-- A text without an open string is cut as before when a line break and another text follow. -/
theorem Cut.split_seam {ps : List Piece} (h : Cut cs ps) (hclosed : ∀ body, openString body ∉ ps)
    (rest : List Char) : split (cs ++ '\n' :: rest) = ps ++ blank '\n' :: split rest := by
  induction h with
  | done => exact split_newline rest
  | @piece p others ps nonempty leads _ ih =>
    obtain ⟨c, cs, hcs⟩ :=
      List.exists_cons_of_ne_nil (List.append_ne_nil_of_left_ne_nil nonempty others)
    rw [hcs, leads_iff] at leads
    have hfirst : first c (cs ++ '\n' :: rest) = p := by
      rw [first_seam, leads]
      intro hopen
      exact hclosed cs (leads ▸ hopen ▸ List.mem_cons_self)
    have hleads : Leads (p.chars ++ (others ++ '\n' :: rest)) p := by
      rw [← List.append_assoc, hcs, List.cons_append, leads_iff, hfirst]
    have hrest := ih fun body hmem => hclosed body (List.mem_cons_of_mem _ hmem)
    rw [List.append_assoc, split_append nonempty hleads, hrest, List.cons_append]

end Seam

/-- The line on which pieces that start on the given one end. -/
def lineAfter (line : Nat) (ps : List Piece) : Nat :=
  ps.foldl (fun line p => line + p.newlines) line

/-- The pieces of a text have the line breaks of the text. -/
theorem Cut.lineAfter {cs : List Char} {ps : List Piece} (h : Cut cs ps) (line : Nat) :
    lineAfter line ps = line + cs.count '\n' := by
  induction h generalizing line with
  | done => rfl
  | piece _ _ _ ih =>
    rw [Piece.lineAfter, List.foldl_cons, ← Piece.lineAfter, ih, List.count_append, Piece.newlines,
      Nat.add_assoc]

/-- No piece is the end mark. -/
theorem Cut.kind_ne_eof {cs : List Char} {ps : List Piece} (h : Cut cs ps) {kind : Kind}
    {lexeme : List Char} (hmem : token kind lexeme ∈ ps) : kind ≠ .eof := by
  have hleads : ∀ {text : List Char} {p : Piece}, Leads text p → p = token kind lexeme →
      kind ≠ .eof := by
    rintro text p hleads rfl rfl
    cases hleads with
    | regular hlongest =>
      have hregular := hlongest.regular
      generalize hp : token .eof lexeme = p at hregular
      cases hregular <;> cases hp
  induction h with
  | done => cases hmem
  | piece _ leads _ ih =>
    rcases List.mem_cons.mp hmem with heq | hmem
    · exact hleads leads heq.symm
    · exact ih hmem

end Piece

namespace Source

/-- The items of pieces that start on the given line, without an end mark. -/
def itemsOf (line : Nat) : List Piece → List ScanItem
  | [] => []
  | p :: ps => (p.item? (line + p.newlines)).toList ++ itemsOf (line + p.newlines) ps

theorem itemsFrom_append (line : Nat) (ps qs : List Piece) :
    itemsFrom line (ps ++ qs) =
      itemsOf line ps ++ itemsFrom (Piece.lineAfter line ps) qs := by
  induction ps generalizing line with
  | nil => rfl
  | cons p ps ih =>
    rw [List.cons_append, itemsFrom, ih, itemsOf, List.append_assoc]
    rfl

theorem itemsFrom_eq (line : Nat) (ps : List Piece) : itemsFrom line ps =
    itemsOf line ps ++ [.ok (Token.endMark (Piece.lineAfter line ps))] := by
  have happend := itemsFrom_append line ps []
  rwa [List.append_nil] at happend

/-- Pieces further down yield the same items further down. -/
theorem itemsFrom_shift (σ : Shift) (line : Nat) (ps : List Piece) :
    itemsFrom (line + σ.lines) ps = (itemsFrom line ps).map (σ.result σ.token) := by
  induction ps generalizing line with
  | nil => rfl
  | cons p ps ih =>
    have hline : line + σ.lines + p.newlines = line + p.newlines + σ.lines :=
      Nat.add_right_comm _ _ _
    have hitem : p.item? (line + p.newlines + σ.lines) =
        (p.item? (line + p.newlines)).map (σ.result σ.token) := by
      cases p <;> rfl
    rw [itemsFrom, itemsFrom, hline, ih, hitem, List.map_append]
    cases p.item? (line + p.newlines) <;> rfl

theorem mem_itemsOf_of_openString {line : Nat} {ps : List Piece} {body : List Char}
    (h : Piece.openString body ∈ ps) :
    ∃ n, .error (.lexical n .unterminatedString) ∈ itemsOf line ps := by
  induction ps generalizing line with
  | nil => cases h
  | cons p ps ih =>
    rcases List.mem_cons.mp h with rfl | h
    · exact ⟨_, List.mem_append_left _ List.mem_cons_self⟩
    · obtain ⟨n, hn⟩ := ih h
      exact ⟨n, List.mem_append_right _ hn⟩

/-- How far the text after a text and a line break is further down. -/
def below (source : String) : Shift :=
  ⟨0, source.toList.count '\n' + 1⟩

/-- Scanning distributes over a line break, unless a string is open there. -/
theorem items_seam {a b : String} (h : ∀ n, .lexical n .unterminatedString ∉ errors a) :
    items (a ++ "\n" ++ b) =
      (items a).dropLast ++ (items b).map ((below a).result (below a).token) := by
  have hcut := Piece.cut_split a.toList
  have hclosed : ∀ body, Piece.openString body ∉ Piece.split a.toList := by
    intro body hmem
    obtain ⟨n, hn⟩ : ∃ n, .error (.lexical n .unterminatedString) ∈
        itemsOf 1 (Piece.split a.toList) := mem_itemsOf_of_openString hmem
    have hitem : .error (.lexical n .unterminatedString) ∈ items a := by
      rw [items, itemsFrom_eq]
      exact List.mem_append_left _ hn
    exact h n (List.mem_filterMap.mpr ⟨_, hitem, rfl⟩)
  have htext : (a ++ "\n" ++ b).toList = a.toList ++ '\n' :: b.toList := by
    simp [String.toList_append]
  have hblank (line : Nat) (ps : List Piece) :
      itemsFrom line (.blank '\n' :: ps) = itemsFrom (line + 1) ps := rfl
  have hline : 1 + a.toList.count '\n' + 1 = 1 + (below a).lines := Nat.add_assoc _ _ _
  rw [items, htext, hcut.split_seam hclosed, itemsFrom_append, hcut.lineAfter, hblank, hline,
    itemsFrom_shift]
  rw [items, itemsFrom_eq 1 (Piece.split a.toList), List.dropLast_concat]
  rfl

theorem kind_ne_eof_of_mem_itemsOf {line : Nat} {ps : List Piece} {t : Token}
    (hkind : ∀ {kind lexeme}, .token kind lexeme ∈ ps → kind ≠ .eof)
    (h : .ok t ∈ itemsOf line ps) : t.kind ≠ .eof := by
  induction ps generalizing line with
  | nil => cases h
  | cons p ps ih =>
    rcases List.mem_append.mp h with h | h
    · have hitem := Option.mem_toList.mp h
      cases p with
      | token kind lexeme =>
        cases hitem
        exact hkind List.mem_cons_self
      | blank c | comment chars | openString body | stray c => cases hitem
    · exact ih (fun hmem => hkind (List.mem_cons_of_mem _ hmem)) h

/-- Scanning yields an end mark last, and none before. -/
theorem items_eq (source : String) : ∃ line,
    items source = (items source).dropLast ++ [.ok (Token.endMark line)] ∧
      ∀ t, .ok t ∈ (items source).dropLast → t.isEnd = false := by
  refine ⟨Piece.lineAfter 1 (Piece.split source.toList), ?_, fun t ht => ?_⟩
  · rw [items, itemsFrom_eq, List.dropLast_concat]
  · rw [items, itemsFrom_eq, List.dropLast_concat] at ht
    have hkind := kind_ne_eof_of_mem_itemsOf (Piece.cut_split source.toList).kind_ne_eof ht
    rwa [← Bool.not_eq_true, Token.isEnd_iff]

theorem tokens_eq (source : String) : ∃ line,
    tokens source = (tokens source).dropLast ++ [Token.endMark line] ∧
      ∀ t ∈ (tokens source).dropLast, t.isEnd = false := by
  obtain ⟨line, hitems, hend⟩ := items_eq source
  have htokens : tokens source =
      (items source).dropLast.filterMap tokenOf? ++ [Token.endMark line] := by
    rw [tokens, hitems, List.filterMap_append, List.dropLast_concat]
    rfl
  rw [htokens, List.dropLast_concat]
  refine ⟨line, rfl, fun t ht => ?_⟩
  obtain ⟨item, hitem, htoken⟩ := List.mem_filterMap.mp ht
  cases item with
  | error d => cases htoken
  | ok t' =>
    cases htoken
    exact hend t hitem

/-- The tokens of two texts with a line break between them. -/
theorem tokens_seam {a b : String} (h : ∀ n, .lexical n .unterminatedString ∉ errors a) :
    tokens (a ++ "\n" ++ b) = (tokens a).dropLast ++ (tokens b).map (below a).token := by
  obtain ⟨line, hitems, -⟩ := items_eq a
  have hbefore : (tokens a).dropLast = (items a).dropLast.filterMap tokenOf? := by
    rw [tokens, hitems, List.filterMap_append, List.dropLast_concat]
    exact List.dropLast_concat
  have hbelow : tokenOf? ∘ (below a).result (below a).token =
      Option.map (below a).token ∘ tokenOf? := by
    funext item
    cases item <;> rfl
  rw [hbefore, tokens, items_seam h, List.filterMap_append, List.filterMap_map, hbelow, tokens,
    List.map_filterMap]
  rfl

/-- The errors of two texts with a line break between them. -/
theorem errors_seam {a b : String} (h : ∀ n, .lexical n .unterminatedString ∉ errors a) :
    errors (a ++ "\n" ++ b) = errors a ++ (errors b).map (below a).diagnostic := by
  obtain ⟨line, hitems, -⟩ := items_eq a
  have hbefore : errors a = (items a).dropLast.filterMap errorOf? := by
    rw [errors, hitems, List.filterMap_append, List.dropLast_concat]
    exact List.append_nil _
  have hbelow : errorOf? ∘ (below a).result (below a).token =
      Option.map (below a).diagnostic ∘ errorOf? := by
    funext item
    cases item <;> rfl
  rw [hbefore, errors, items_seam h, List.filterMap_append, List.filterMap_map, hbelow, errors,
    List.map_filterMap]
  rfl

end Source

namespace Scanner

/-- No answer of a scan is the report of a string that is never closed. -/
def ClosesStrings (source : String) : Prop :=
  ∀ n line, (ofSource source).answer n ≠ some (.error (.lexical line .unterminatedString))

theorem ClosesStrings.not_mem_errors {source : String} (h : ClosesStrings source) (line : Nat) :
    .lexical line .unterminatedString ∉ Source.errors source := by
  intro hmem
  obtain ⟨item, hitem, herror⟩ := List.mem_filterMap.mp hmem
  obtain ⟨n, hn⟩ := List.mem_iff_getElem?.mp hitem
  have hanswer : (ofSource source).answer n = some item := by
    rw [answer_eq_getElem?, remaining_ofSource, hn]
  cases item with
  | ok t => cases herror
  | error d =>
    have hd : d = .lexical line .unterminatedString := Option.some.inj herror
    exact h n line (hd ▸ hanswer)

/-- The scan of two texts with a line break between them, call by call: what the first text yields
before its end mark, and then all that the second text yields, further down by the lines of the
first. -/
theorem answers_seam {a b : String} (h : ClosesStrings a) :
    ∃ before line,
      (∀ n, (ofSource a).answer n = (before ++ [.ok (Token.endMark line)])[n]?) ∧
        (∀ t, .ok t ∈ before → t.kind ≠ .eof) ∧
          ∀ n, (ofSource (a ++ "\n" ++ b)).answer n =
            if n < before.length then (ofSource a).answer n
            else ((ofSource b).answer (n - before.length)).map
              ((Source.below a).result (Source.below a).token) := by
  have hanswer (source : String) (n : Nat) :
      (ofSource source).answer n = (Source.items source)[n]? := by
    rw [answer_eq_getElem?, remaining_ofSource]
  obtain ⟨line, hitems, hbefore⟩ := Source.items_eq a
  generalize (Source.items a).dropLast = before at hitems hbefore
  have hseam := Source.items_seam (b := b) h.not_mem_errors
  rw [hitems, List.dropLast_concat] at hseam
  refine ⟨before, line, ?_, ?_, ?_⟩
  · intro n
    rw [hanswer, hitems]
  · intro t ht heof
    have hfalse : t.isEnd = false := hbefore t ht
    rw [t.isEnd_iff.mpr heof] at hfalse
    cases hfalse
  · intro n
    rw [hanswer, hanswer, hanswer, hitems, hseam]
    by_cases hn : n < before.length
    · rw [if_pos hn, List.getElem?_append_left hn, List.getElem?_append_left hn]
    · rw [if_neg hn, List.getElem?_append_right (Nat.le_of_not_lt hn), List.getElem?_map]

/-- Two slashes with a line break between them are no comment. -/
theorem answers_seam_twoSlashes :
    ClosesStrings "@\nx/" ∧ (ofSource ("@\nx/" ++ "\n" ++ "/y")).answer 3 =
      some (.ok ⟨.punctuator .slash, "/", 3⟩) := by
  have hitems : Source.items "@\nx/" =
      [.error (.lexical 1 (.strayCharacter '@')), .ok ⟨.identifier, "x", 2⟩,
        .ok ⟨.punctuator .slash, "/", 2⟩, .ok (Token.endMark 2)] := rfl
  have hcloses : ClosesStrings "@\nx/" := by
    intro n line hanswer
    rw [answer_eq_getElem?, remaining_ofSource, hitems] at hanswer
    have hmem := List.mem_of_getElem? hanswer
    simp at hmem
  obtain ⟨before, line, hfirst, -, hboth⟩ := answers_seam (b := "/y") hcloses
  have hbefore : before ++ [.ok (Token.endMark line)] = Source.items "@\nx/" := by
    apply List.ext_getElem?
    intro n
    rw [← hfirst, answer_eq_getElem?, remaining_ofSource]
  have hlength : before.length = 3 := by
    have hsum := congrArg List.length (hbefore.trans hitems)
    simpa using hsum
  refine ⟨hcloses, ?_⟩
  rw [hboth 3, hlength, if_neg (Nat.lt_irrefl 3)]
  rfl

end Scanner

end TreeWalk
