import TreeWalk.Proofs.Source.Cut
import TreeWalk.Source.Scan

/-!
Scanning item by item: call after call takes the items of a source in their order.
-/

namespace TreeWalk

namespace Scanner

/-- The answer to the call after `n` calls. -/
def answer (s : Scanner) : Nat → Option ScanItem
  | 0 => s.next.1
  | n + 1 => answer s.next.2 n

/-- The items which are still to come. -/
def remaining (s : Scanner) : List ScanItem :=
  if s.ended then [] else Source.itemsFrom s.line s.pieces

theorem remaining_ofSource (source : String) : (ofSource source).remaining = Source.items source :=
  rfl

theorem itemsFrom_eq_advance (line : Nat) (ps : List Piece) :
    Source.itemsFrom line ps = (advance line ps).1 :: (advance line ps).2.remaining := by
  induction ps generalizing line with
  | nil => rfl
  | cons p ps ih =>
    rw [Source.itemsFrom, advance]
    cases p.item? (line + p.newlines) with
    | none => exact ih _
    | some item => rfl

theorem next_item (s : Scanner) : s.next.1 = s.remaining.head? := by
  unfold next remaining
  split
  · rfl
  · rw [itemsFrom_eq_advance]
    rfl

theorem remaining_next (s : Scanner) : s.next.2.remaining = s.remaining.tail := by
  by_cases h : s.ended = true
  · simp [next, remaining, h]
  · have hs : s.remaining = (advance s.line s.pieces).1 :: (advance s.line s.pieces).2.remaining := by
      rw [remaining, if_neg h, itemsFrom_eq_advance]
    rw [hs, next, if_neg h]
    rfl

/-- Call after call takes the remaining items one by one, and then answers with nothing. -/
theorem answer_eq_getElem? (s : Scanner) (n : Nat) : s.answer n = s.remaining[n]? := by
  induction n generalizing s with
  | zero => rw [answer, next_item, List.head?_eq_getElem?]
  | succ n ih => rw [answer, ih, remaining_next, List.getElem?_tail]

end Scanner

namespace Source

theorem line_of_item? {line : Nat} {p : Piece} {t : Token} (h : p.item? line = some (.ok t)) :
    t.line = line := by
  cases p with
  | token kind lexeme =>
    cases h
    rfl
  | blank c | comment body | openString body | stray c => cases h

/-- Scanning goes down the lines of a text. -/
theorem lines_itemsFrom (line : Nat) (ps : List Piece) :
    (∀ t ∈ (itemsFrom line ps).filterMap tokenOf?, line ≤ t.line) ∧
      ((itemsFrom line ps).filterMap tokenOf?).Pairwise fun t t' => t.line ≤ t'.line := by
  induction ps generalizing line with
  | nil =>
    refine ⟨fun t ht => ?_, List.pairwise_singleton _ _⟩
    have hend : t = Token.endMark line := List.mem_singleton.mp ht
    rw [hend]
    exact Nat.le_refl line
  | cons p ps ih =>
    have hpairwise := (ih (line + p.newlines)).2
    have hlater := (ih (line + p.newlines)).1
    have hdown : line ≤ line + p.newlines := Nat.le_add_right _ _
    have hbelow : ∀ t ∈ (itemsFrom (line + p.newlines) ps).filterMap tokenOf?, line ≤ t.line :=
      fun t ht => hdown.trans (hlater t ht)
    rw [itemsFrom]
    cases hitem : p.item? (line + p.newlines) with
    | none => exact ⟨hbelow, hpairwise⟩
    | some item =>
      cases item with
      | error d => exact ⟨hbelow, hpairwise⟩
      | ok t =>
        have ht : t.line = line + p.newlines := line_of_item? hitem
        exact ⟨List.forall_mem_cons.mpr ⟨hdown.trans ht.ge, hbelow⟩,
          List.pairwise_cons.mpr ⟨fun u hu => ht.le.trans (hlater u hu), hpairwise⟩⟩

/-- No token of a text is above one that comes before it. -/
theorem line_le {source : String} {i j : Fin (tokens source).length} (h : i ≤ j) :
    (tokens source)[i].line ≤ (tokens source)[j].line := by
  have hpairwise := (lines_itemsFrom 1 (Piece.split source.toList)).2
  rcases Nat.lt_or_eq_of_le h with hlt | heq
  · exact List.pairwise_iff_getElem.mp hpairwise i j i.isLt j.isLt hlt
  · obtain rfl := Fin.ext heq
    exact Nat.le_refl _

end Source

end TreeWalk
