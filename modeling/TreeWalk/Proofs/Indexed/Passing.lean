import TreeWalk.Proofs.Indexed.Encoding

/-! What the steps of a scanner of bytes and its loops do, told by the bytes that are left. With
more fuel than bytes they have a result. -/

namespace TreeWalk

namespace ByteCursor

/-- Moved on over so many bytes with so many line breaks. -/
def forward (bytes lines : Nat) (s : ByteCursor) : ByteCursor :=
  { s with current := s.current + bytes, line := s.line + lines }

theorem forward_forward (s : ByteCursor) (i j k l : Nat) :
    (s.forward i j).forward k l = s.forward (i + k) (j + l) := by
  simp only [forward, Nat.add_assoc]

/-- The bytes of the source from the cursor on. -/
def Left (source : String) (s : ByteCursor) (after : List UInt8) : Prop :=
  ∃ before, Source.bytes source = before ++ after ∧ s.current = before.length

namespace Left

variable {source : String} {s : ByteCursor} {bs after : List UInt8} {b : UInt8}

theorem forward (h : Left source s (bs ++ after)) (lines : Nat) :
    Left source (s.forward bs.length lines) after := by
  obtain ⟨before, hbytes, hcurrent⟩ := h
  refine ⟨before ++ bs, ?_, ?_⟩
  · rw [hbytes, List.append_assoc]
  · rw [List.length_append, ← hcurrent]
    rfl

theorem past_byte (h : Left source s (b :: after)) (lines : Nat) :
    Left source (s.forward 1 lines) after := by
  have hone : Left source s ([b] ++ after) := h
  exact hone.forward lines

theorem length_eq (h : Left source s after) :
    (Source.bytes source).length = s.current + after.length := by
  obtain ⟨before, hbytes, hcurrent⟩ := h
  rw [hbytes, List.length_append, hcurrent]

theorem drop_eq (h : Left source s after) : (Source.bytes source).drop s.current = after := by
  obtain ⟨before, hbytes, hcurrent⟩ := h
  rw [hbytes, hcurrent, List.drop_left]

theorem getElem?_eq (h : Left source s after) (i : Nat) :
    (Source.bytes source)[s.current + i]? = after[i]? := by
  rw [← List.getElem?_drop, h.drop_eq]

end Left

end ByteCursor

namespace ByteScan

variable {α β : Type} {source : String} {s s' : ByteCursor} {after : List UInt8} {b : UInt8}

theorem bind_of_some {r : ByteScan α} {f : α → ByteScan β} {a : α}
    (h : r source s = some (a, s')) : (r >>= f) source s = f a source s' := by
  change (r source s).bind (fun outcome => f outcome.1 source outcome.2) = _
  rw [h]
  rfl

theorem get_bind (f : ByteCursor → ByteScan β) : (get >>= f) source s = f s source s :=
  rfl

theorem read_bind (f : String → ByteScan β) : (read >>= f) source s = f source source s :=
  rfl

theorem ite_run {p : Prop} [Decidable p] (r r' : ByteScan α) :
    (if p then r else r') source s = if p then r source s else r' source s := by
  split <;> rfl

theorem discard_of_some {r : ByteScan α} {a : α} (h : r source s = some (a, s')) :
    discard r source s = some ((), s') := by
  change (r source s).bind (fun outcome => some ((), outcome.2)) = _
  rw [h]
  rfl

section Steps

theorem size_run (source : String) (s : ByteCursor) :
    size source s = some ((Source.bytes source).length, s) :=
  rfl

theorem isAtEnd_run (h : s.Left source after) : isAtEnd source s = some (after.isEmpty, s) := by
  have hend : decide ((Source.bytes source).length ≤ s.current) = after.isEmpty := by
    rw [h.length_eq]
    cases after with
    | nil => exact decide_eq_true (Nat.le_refl _)
    | cons b after => exact decide_eq_false (by rw [List.length_cons]; omega)
  rw [← hend]
  rfl

theorem byteAt_run {i : Nat} (h : (Source.bytes source)[i]? = some b) :
    byteAt i source s = some (b, s) := by
  change ofOption (Source.bytes source)[i]? source s = _
  rw [h]
  rfl

theorem slice_run {i j : Nat} {text : String} (h : Source.slice? source i j = some text) :
    slice i j source s = some (text, s) := by
  change ofOption (Source.slice? source i j) source s = _
  rw [h]
  rfl

theorem advance_run (h : s.Left source (b :: after)) :
    advance source s = some (b, s.forward 1 0) := by
  have hbyte : byteAt s.current source s = some (b, s) := byteAt_run (h.getElem?_eq 0)
  rw [advance, get_bind, bind_of_some hbyte]
  rfl

theorem peek_run (h : s.Left source after) : peek source s = some (after.headD 0, s) := by
  rw [peek, bind_of_some (isAtEnd_run h)]
  cases after with
  | nil => rfl
  | cons b after => exact byteAt_run (h.getElem?_eq 0)

theorem peekNext_run (h : s.Left source after) :
    peekNext source s = some (after.tail.headD 0, s) := by
  rw [peekNext, get_bind, bind_of_some (size_run source s), h.length_eq, ite_run]
  split
  · next hend =>
    have htail : after.tail = [] := by
      apply List.eq_nil_of_length_eq_zero
      rw [List.length_tail]
      omega
    rw [htail]
    rfl
  · next hend =>
    have hlength : 1 < after.length := by omega
    apply byteAt_run
    rw [h.getElem?_eq 1, List.getElem?_eq_getElem hlength]
    cases after with
    | nil => cases hlength
    | cons b after =>
      cases after with
      | nil => exact absurd hlength (Nat.lt_irrefl 1)
      | cons b' after => rfl

theorem takes_of_ne (h : s.Left source after) {expected : UInt8}
    (hne : after.head? ≠ some expected) : takes expected source s = some (false, s) := by
  rw [takes, bind_of_some (isAtEnd_run h)]
  cases after with
  | nil => rfl
  | cons b after =>
    have hb : b ≠ expected := fun hsame => hne (congrArg some hsame)
    rw [List.isEmpty_cons, if_neg Bool.false_ne_true, bind_of_some (peek_run h), List.headD_cons,
      if_neg hb]
    rfl

theorem takes_of_eq (h : s.Left source (b :: after)) :
    takes b source s = some (true, s.forward 1 0) := by
  rw [takes, bind_of_some (isAtEnd_run h), List.isEmpty_cons, if_neg Bool.false_ne_true,
    bind_of_some (peek_run h), List.headD_cons, if_pos rfl]
  exact bind_of_some (discard_of_some (advance_run h))

end Steps

section Loops

variable {fuel : Nat} {class_ : UInt8 → Bool}

/-- A class that zero is not in comes to an end where the source does. -/
theorem passWhile_run (hzero : class_ 0 = false) (h : s.Left source after)
    (hfuel : after.length < fuel) :
    passWhile class_ fuel source s =
      some ((), s.forward (after.takeWhile class_).length 0) := by
  induction fuel generalizing s after with
  | zero => cases hfuel
  | succ fuel ih =>
    rw [passWhile, bind_of_some (peek_run h)]
    cases after with
    | nil =>
      rw [List.headD_nil, hzero, if_neg Bool.false_ne_true]
      rfl
    | cons b after =>
      rw [List.headD_cons]
      cases hb : class_ b with
      | false =>
        have hstop : ¬ class_ b = true := by
          rw [hb]
          exact Bool.false_ne_true
        rw [if_neg Bool.false_ne_true, List.takeWhile_cons_of_neg hstop]
        rfl
      | true =>
        rw [if_pos rfl, bind_of_some (discard_of_some (advance_run h)),
          ih (h.past_byte 0) (Nat.lt_of_succ_lt_succ hfuel), ByteCursor.forward_forward,
          List.takeWhile_cons_of_pos hb, List.length_cons, Nat.add_comm 1]

section Delimiters

variable {γ : Type} [DecidableEq γ] {a : γ} {l : List γ}

theorem decide_ne_of_not_mem (h : a ∉ l) : ∀ d ∈ l, decide (d ≠ a) = true := by
  intro d hd
  apply decide_eq_true
  rintro rfl
  exact h hd

theorem takeWhile_ne_eq_self (h : a ∉ l) : l.takeWhile (fun d => decide (d ≠ a)) = l :=
  List.takeWhile_eq_self_iff.mpr (decide_ne_of_not_mem h)

theorem takeWhile_ne_append (h : a ∉ l) (after : List γ) :
    (l ++ a :: after).takeWhile (fun d => decide (d ≠ a)) = l := by
  have hcut : (a :: after).takeWhile (fun d => decide (d ≠ a)) = [] :=
    List.takeWhile_cons_of_neg (by simp)
  rw [List.takeWhile_append_of_pos (decide_ne_of_not_mem h), hcut, List.append_nil]

end Delimiters

theorem findIdx?_eq (after : List UInt8) (b : UInt8) :
    after.findIdx? (fun d => decide (d = b)) =
      if b ∈ after then some (after.takeWhile fun d => decide (d ≠ b)).length else none := by
  induction after with
  | nil => rfl
  | cons d after ih =>
    rw [List.findIdx?_cons]
    by_cases hd : d = b
    · rw [decide_eq_true hd, if_pos rfl, if_pos (hd ▸ List.mem_cons_self),
        List.takeWhile_cons_of_neg (by simp [hd])]
      rfl
    · have hmem : b ∈ d :: after ↔ b ∈ after := by
        rw [List.mem_cons, or_iff_right (Ne.symm hd)]
      rw [decide_eq_false hd, if_neg Bool.false_ne_true, ih,
        List.takeWhile_cons_of_pos (by simp [hd])]
      simp only [hmem]
      split <;> rfl

theorem passComment_run (h : s.Left source after) :
    passComment source s =
      some ((), s.forward (after.takeWhile fun b => decide (b ≠ '\n'.toUInt8)).length 0) := by
  have hbound : ¬ (Source.bytes source).length < s.current := by
    rw [h.length_eq]
    omega
  rw [passComment, get_bind, bind_of_some (size_run source s), ite_run, if_neg hbound, read_bind,
    h.drop_eq, findIdx?_eq]
  by_cases hmem : '\n'.toUInt8 ∈ after
  · rw [if_pos hmem]
    rfl
  · rw [if_neg hmem, takeWhile_ne_eq_self hmem, h.length_eq]
    rfl

/-- The inside of a string reaches to the next quote or to the end. Each of its line breaks is
counted once, when it is passed. -/
theorem passString_run (h : s.Left source after) (hfuel : after.length < fuel) :
    passString fuel source s = some ((), s.forward
      (after.takeWhile fun b => decide (b ≠ '"'.toUInt8)).length
      ((after.takeWhile fun b => decide (b ≠ '"'.toUInt8)).count '\n'.toUInt8)) := by
  induction fuel generalizing s after with
  | zero => cases hfuel
  | succ fuel ih =>
    -- One byte is passed in a round, and a line break among them counts for one line.
    rw [passString, bind_of_some (isAtEnd_run h)]
    cases after with
    | nil => rfl
    | cons b after =>
      rw [List.isEmpty_cons, if_neg Bool.false_ne_true, bind_of_some (peek_run h), List.headD_cons]
      by_cases hb : b = '"'.toUInt8
      · rw [if_pos hb, List.takeWhile_cons_of_neg (by simp [hb])]
        rfl
      · rw [if_neg hb, bind_of_some (advance_run h), ite_run,
          List.takeWhile_cons_of_pos (by simp [hb]), List.length_cons, List.count_cons]
        by_cases hline : b = '\n'.toUInt8
        · have hdown : nextLine source (s.forward 1 0) = some ((), s.forward 1 1) := rfl
          rw [if_pos hline, bind_of_some hdown]
          dsimp only
          rw [ih (h.past_byte 1) (Nat.lt_of_succ_lt_succ hfuel), ByteCursor.forward_forward,
            if_pos (beq_iff_eq.mpr hline), Nat.add_comm 1, Nat.add_comm 1]
        · have hsame : (b == '\n'.toUInt8) = false := beq_eq_false_iff_ne.mpr hline
          rw [if_neg hline]
          dsimp only
          rw [ih (h.past_byte 0) (Nat.lt_of_succ_lt_succ hfuel), ByteCursor.forward_forward, hsame,
            if_neg Bool.false_ne_true, Nat.add_comm 1, Nat.zero_add]
          rfl

end Loops

end ByteScan

namespace ByteCursor

/-- Moved on over a text with so many line breaks. -/
def across (text : List Char) (lines : Nat) (s : ByteCursor) : ByteCursor :=
  s.forward (Source.encode text).length lines

theorem across_across (s : ByteCursor) (text text' : List Char) (i j : Nat) :
    (s.across text i).across text' j = s.across (text ++ text') (i + j) := by
  rw [across, across, across, forward_forward, Source.encode_append, List.length_append]

/-- The cursor stands where a character of the source starts, or at the end. -/
structure Stands (source : String) (before rest : List Char) (s : ByteCursor) : Prop where
  text : source.toList = before ++ rest
  current : s.current = (Source.encode before).length

namespace Stands

variable {source : String} {before text rest : List Char} {s : ByteCursor}

theorem left (h : s.Stands source before rest) : s.Left source (Source.encode rest) :=
  ⟨Source.encode before, by rw [Source.bytes_eq_encode, h.text, Source.encode_append], h.current⟩

theorem across (h : s.Stands source before (text ++ rest)) (lines : Nat) :
    (s.across text lines).Stands source (before ++ text) rest where
  text := by rw [h.text, List.append_assoc]
  current := by
    rw [Source.encode_append, List.length_append, ← h.current]
    rfl

/-- A text and then another are passed over like the two together. -/
theorem more {lines : Nat} (text' : List Char)
    (h : (s.across text lines).Stands source (before ++ text) (text' ++ rest)) (lines' : Nat) :
    (s.across (text ++ text') (lines + lines')).Stands source (before ++ (text ++ text')) rest := by
  rw [← across_across, ← List.append_assoc]
  exact h.across lines'

/-- A run of characters of a class is passed over like a text before the rest. -/
theorem run {lines : Nat} (class_ : Char → Bool)
    (h : (s.across text lines).Stands source (before ++ text) rest) :
    (s.across (text ++ rest.takeWhile class_) lines).Stands source
      (before ++ (text ++ rest.takeWhile class_)) (rest.dropWhile class_) := by
  rw [← List.takeWhile_append_dropWhile (p := class_) (l := rest)] at h
  exact h.more _ 0

theorem at_end (h : s.Stands source before []) : s.current = (Source.bytes source).length := by
  rw [h.left.length_eq, Source.encode_nil, List.length_nil, Nat.add_zero]

theorem inside {c : Char} (h : s.Stands source before (c :: rest)) :
    s.current < (Source.bytes source).length := by
  have hpositive := Source.length_le_encode (c :: rest)
  rw [List.length_cons] at hpositive
  rw [h.left.length_eq]
  omega

theorem length_le (h : s.Stands source before rest) :
    (Source.encode rest).length ≤ (Source.bytes source).length := by
  rw [h.left.length_eq]
  exact Nat.le_add_left _ _

end Stands

end ByteCursor

namespace ByteScan

open Source

variable {source : String} {before text rest : List Char} {c : Char} {s : ByteCursor} {fuel : Nat}

section Characters

theorem across_singleton (hc : c.toNat < 128) (s : ByteCursor) :
    s.across [c] 0 = s.forward 1 0 := by
  have hone : (encode [c]).length = 1 := by
    rw [encode_cons_narrow hc]
    rfl
  rw [ByteCursor.across, hone]

theorem advance_char (h : s.Stands source before (c :: rest)) (hc : c.toNat < 128) :
    advance source s = some (c.toUInt8, s.across [c] 0) := by
  have hleft := h.left
  rw [encode_cons_narrow hc] at hleft
  rw [advance_run hleft, across_singleton hc]

theorem takes_char (h : s.Stands source before (c :: rest)) (hc : c.toNat < 128) :
    takes c.toUInt8 source s = some (true, s.across [c] 0) := by
  have hleft := h.left
  rw [encode_cons_narrow hc] at hleft
  rw [takes_of_eq hleft, across_singleton hc]

theorem takes_other (h : s.Stands source before rest) (hc : c.toNat < 128)
    (hother : rest.head? ≠ some c) : takes c.toUInt8 source s = some (false, s) := by
  apply takes_of_ne h.left
  cases rest with
  | nil => simp
  | cons d rest =>
    obtain ⟨b, hmem, bs, hbytes⟩ := exists_encode_cons d rest
    have hb : decide (b = c.toUInt8) = decide (d = c) := (reads_eq hc).of_mem hmem
    rw [hbytes, List.head?_cons, Ne, Option.some_inj, decide_eq_decide.mp hb]
    rintro rfl
    exact hother rfl

variable {class_ : Char → Bool} {byteClass : UInt8 → Bool}

theorem passWhile_chars (h : s.Stands source before rest) (hreads : Reads class_ byteClass)
    (hzero : byteClass 0 = false) (hfuel : (bytes source).length < fuel) :
    passWhile byteClass fuel source s = some ((), s.across (rest.takeWhile class_) 0) := by
  rw [passWhile_run hzero h.left (Nat.lt_of_le_of_lt h.length_le hfuel), hreads.takeWhile_encode,
    ByteCursor.across]

theorem passComment_chars (h : s.Stands source before rest) :
    passComment source s = some ((), s.across (rest.takeWhile fun d => decide (d ≠ '\n')) 0) := by
  rw [passComment_run h.left, (reads_ne (d := '\n') (by decide)).takeWhile_encode,
    ByteCursor.across]

theorem passString_chars (h : s.Stands source before rest)
    (hfuel : (bytes source).length < fuel) :
    passString fuel source s = some ((), s.across (rest.takeWhile fun d => decide (d ≠ '"'))
      ((rest.takeWhile fun d => decide (d ≠ '"')).count '\n')) := by
  rw [passString_run h.left (Nat.lt_of_le_of_lt h.length_le hfuel),
    (reads_ne (d := '"') (by decide)).takeWhile_encode, count_encode (by decide), ByteCursor.across]

theorem isAtEnd_chars (h : s.Stands source before rest) :
    isAtEnd source s = some (rest.isEmpty, s) := by
  rw [isAtEnd_run h.left]
  cases rest with
  | nil => rfl
  | cons d rest =>
    obtain ⟨b, -, bs, hbytes⟩ := exists_encode_cons d rest
    rw [hbytes]
    rfl

theorem advance_more {lines : Nat} (hc : c.toNat < 128)
    (h : (s.across text lines).Stands source (before ++ text) (c :: rest)) :
    advance source (s.across text lines) = some (c.toUInt8, s.across (text ++ [c]) lines) := by
  rw [advance_char h hc, ByteCursor.across_across]
  rfl

theorem passWhile_more {lines : Nat} (hreads : Reads class_ byteClass) (hzero : byteClass 0 = false)
    (hfuel : (bytes source).length < fuel)
    (h : (s.across text lines).Stands source (before ++ text) rest) :
    passWhile byteClass fuel source (s.across text lines) =
      some ((), s.across (text ++ rest.takeWhile class_) lines) := by
  rw [passWhile_chars h hreads hzero hfuel, ByteCursor.across_across]
  rfl

/-- The text between the start of a piece and the cursor. -/
theorem lexeme_chars (h : s.Stands source (before ++ text) rest)
    (hstart : s.start = (encode before).length) :
    lexeme source s = some (String.ofList text, s) := by
  rw [lexeme, get_bind]
  apply slice_run
  rw [hstart, h.current, slice?_encode h.text]

end Characters

end ByteScan

end TreeWalk
