import TreeWalk.Syntax.Outline

/-! Words, and lists of them in parentheses. If no word has a blank or a parenthesis in it, a text
can be read as one tree only. -/

namespace TreeWalk

/-- A word, or a list with a word for its head. -/
inductive Bracketed where
  | word (w : List Char)
  | list (head : List Char) (items : List Bracketed)

namespace Bracketed

mutual

def text : Bracketed → List Char
  | word w => w
  | list head items => '(' :: (head ++ closing items)

/-- What follows the head of a list: each item after a blank, and the parenthesis that closes it. -/
def closing : List Bracketed → List Char
  | [] => [')']
  | b :: bs => ' ' :: (text b ++ closing bs)

end

def isDelimiter (c : Char) : Bool :=
  c = ' ' || c = '(' || c = ')'

/-- A text that no delimiter cuts in two. -/
structure IsWord (w : List Char) : Prop where
  nonempty : w ≠ []
  undivided : ∀ c ∈ w, isDelimiter c = false

mutual

/-- All words in the tree are undivided. -/
inductive Readable : Bracketed → Prop where
  | word {w} : IsWord w → Readable (word w)
  | list {head items} : IsWord head → AllReadable items → Readable (list head items)

inductive AllReadable : List Bracketed → Prop where
  | nil : AllReadable []
  | cons {b bs} : Readable b → AllReadable bs → AllReadable (b :: bs)

end

/-- A word before this text ends where the text starts. -/
def Delimited (rest : List Char) : Prop :=
  ∀ c ∈ rest.head?, isDelimiter c = true

section Reading

variable {w w' rest rest' : List Char}

theorem delimited_closing (bs : List Bracketed) (rest : List Char) :
    Delimited (closing bs ++ rest) := by
  intro c hc
  cases bs with
  | nil =>
    cases hc
    rfl
  | cons b bs =>
    cases hc
    rfl

/-- What is left of a text from its first delimiter on starts after the word. -/
theorem takeWhile_word (hw : IsWord w) (hrest : Delimited rest) :
    (w ++ rest).takeWhile (fun c => !isDelimiter c) = w := by
  have hword : ∀ c ∈ w, (!isDelimiter c) = true := by
    intro c hc
    rw [hw.undivided c hc]
    rfl
  have hnone : rest.takeWhile (fun c => !isDelimiter c) = [] := by
    cases rest with
    | nil => rfl
    | cons c cs =>
      have hc : isDelimiter c = true := hrest c rfl
      apply List.takeWhile_cons_of_neg
      rw [hc]
      exact Bool.false_ne_true
  rw [List.takeWhile_append_of_pos hword, hnone, List.append_nil]

theorem word_append_inj (hw : IsWord w) (hw' : IsWord w') (hrest : Delimited rest)
    (hrest' : Delimited rest') (h : w ++ rest = w' ++ rest') : w = w' ∧ rest = rest' := by
  have hsame : w = w' := by
    calc w = (w ++ rest).takeWhile (fun c => !isDelimiter c) := (takeWhile_word hw hrest).symm
      _ = (w' ++ rest').takeWhile (fun c => !isDelimiter c) := by rw [h]
      _ = w' := takeWhile_word hw' hrest'
  subst hsame
  exact ⟨rfl, List.append_cancel_left h⟩

/-- A word is not where a list opens. -/
theorem word_ne_opening (hw : IsWord w) : w ++ rest ≠ '(' :: rest' := by
  intro h
  obtain ⟨c, cs, rfl⟩ := List.exists_cons_of_ne_nil hw.nonempty
  obtain ⟨rfl, -⟩ := List.cons_eq_cons.mp h
  exact absurd (hw.undivided '(' List.mem_cons_self) (by decide)

mutual

/-- Two trees at the start of one text, each up to a delimiter, are the same tree. -/
theorem text_append_inj {b b' : Bracketed} (hb : Readable b) (hb' : Readable b')
    {rest rest' : List Char} (hrest : Delimited rest) (hrest' : Delimited rest')
    (h : b.text ++ rest = b'.text ++ rest') : b = b' ∧ rest = rest' := by
  match hb, hb' with
  | .word hw, .word hw' =>
    obtain ⟨rfl, hrests⟩ := word_append_inj hw hw' hrest hrest' h
    exact ⟨rfl, hrests⟩
  | .word hw, .list _ _ => exact absurd h (word_ne_opening hw)
  | .list _ _, .word hw' => exact absurd h.symm (word_ne_opening hw')
  | @Readable.list head items hhead hitems, @Readable.list head' items' hhead' hitems' =>
    have hinside : (head ++ closing items) ++ rest = (head' ++ closing items') ++ rest' :=
      (List.cons_eq_cons.mp h).2
    rw [List.append_assoc, List.append_assoc] at hinside
    obtain ⟨rfl, hclosing⟩ := word_append_inj hhead hhead' (delimited_closing items rest)
      (delimited_closing items' rest') hinside
    obtain ⟨rfl, hrests⟩ := closing_append_inj hitems hitems' hrest hrest' hclosing
    exact ⟨rfl, hrests⟩

theorem closing_append_inj {bs bs' : List Bracketed} (hbs : AllReadable bs)
    (hbs' : AllReadable bs') {rest rest' : List Char} (hrest : Delimited rest)
    (hrest' : Delimited rest') (h : closing bs ++ rest = closing bs' ++ rest') :
    bs = bs' ∧ rest = rest' := by
  match hbs, hbs' with
  | .nil, .nil => exact ⟨rfl, (List.cons_eq_cons.mp h).2⟩
  | .nil, .cons _ _ => exact absurd (List.cons_eq_cons.mp h).1 (by decide)
  | .cons _ _, .nil => exact absurd (List.cons_eq_cons.mp h).1 (by decide)
  | @AllReadable.cons b bs hb hbs, @AllReadable.cons b' bs' hb' hbs' =>
    have hitem : (b.text ++ closing bs) ++ rest = (b'.text ++ closing bs') ++ rest' :=
      (List.cons_eq_cons.mp h).2
    rw [List.append_assoc, List.append_assoc] at hitem
    -- The next item is told from the others by the delimiter that they start with.
    obtain ⟨rfl, hothers⟩ := text_append_inj hb hb' (delimited_closing bs rest)
      (delimited_closing bs' rest') hitem
    obtain ⟨rfl, hrests⟩ := closing_append_inj hbs hbs' hrest hrest' hothers
    exact ⟨rfl, hrests⟩

end

/-- Unique readability: a text is that of one readable tree at most. -/
theorem text_inj {b b' : Bracketed} (hb : b.Readable) (hb' : b'.Readable)
    (h : b.text = b'.text) : b = b' := by
  have hend : Delimited [] := fun c hc => nomatch hc
  apply (text_append_inj hb hb' hend hend _).1
  rw [h]

end Reading

end Bracketed

namespace Expr

mutual

/-- The outline of an expression before it is written down. -/
def bracketed : Expr → Bracketed
  | literal value => .word value.outline.toList
  | grouping inner => .list "group".toList [bracketed inner]
  | unary operator right => .list operator.lexeme.toList [bracketed right]
  | binary left operator right =>
    .list operator.lexeme.toList [bracketed left, bracketed right]
  | logical left operator right =>
    .list operator.lexeme.toList [bracketed left, bracketed right]
  | var _ name => .word name.lexeme.toList
  | assign _ name value => .list ['='] [.word name.lexeme.toList, bracketed value]
  | call callee _ arguments => .list "call".toList (bracketed callee :: bracketedAll arguments)

def bracketedAll : List Expr → List Bracketed
  | [] => []
  | e :: es => bracketed e :: bracketedAll es

end

theorem intercalate_cons (w : List Char) (ws : List (List Char)) :
    [' '].intercalate (w :: ws) = w ++ ws.flatMap (' ' :: ·) := by
  induction ws generalizing w with
  | nil => simp
  | cons w' ws ih => rw [List.intercalate_cons_cons, ih, List.flatMap_cons]; simp

theorem toList_parenthesized (head : String) (operands : List String) :
    (parenthesized head operands).toList =
      '(' :: (head.toList ++ (operands.flatMap (fun s => ' ' :: s.toList) ++ [')'])) := by
  simp [parenthesized, String.toList_intercalate, intercalate_cons, List.flatMap_map]

mutual

theorem toList_outline (e : Expr) : e.outline.toList = e.bracketed.text := by
  match e with
  | literal _ | var _ _ => rfl
  | grouping inner =>
    simp [outline, bracketed, toList_parenthesized, Bracketed.text, Bracketed.closing,
      toList_outline inner]
  | unary _ right =>
    simp [outline, bracketed, toList_parenthesized, Bracketed.text, Bracketed.closing,
      toList_outline right]
  | binary left _ right | logical left _ right =>
    simp [outline, bracketed, toList_parenthesized, Bracketed.text, Bracketed.closing,
      toList_outline left, toList_outline right]
  | assign _ _ value =>
    simp [outline, bracketed, toList_parenthesized, Bracketed.text, Bracketed.closing,
      toList_outline value]
  | call callee _ arguments =>
    simp [outline, bracketed, toList_parenthesized, Bracketed.text, Bracketed.closing,
      toList_outline callee, toList_outlines arguments]

theorem toList_outlines (es : List Expr) :
    (outlines es).flatMap (fun s => ' ' :: s.toList) ++ [')'] =
      Bracketed.closing (bracketedAll es) := by
  match es with
  | [] => rfl
  | e :: es =>
    simp [outlines, bracketedAll, Bracketed.closing, toList_outline e, ← toList_outlines es]

end

end Expr

end TreeWalk
