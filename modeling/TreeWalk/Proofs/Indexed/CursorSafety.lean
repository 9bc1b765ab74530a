import TreeWalk.Proofs.Indexed.ItemScan

/-! The byte cursor is safe. A read out of bounds, a cut inside a character, a missing character and
a text that is no number all leave a run of the scanner of bytes without a result; every call has
one. The calls are taken apart into their steps here, and each step begins and ends where characters
do and moves on. -/

namespace TreeWalk

open Source

namespace Source

/-- A text is cut out between these indices: they are in order and within the source, and stand
where characters start or at the end. -/
structure Sliceable (source : String) (i j : Nat) : Prop where
  ordered : i ≤ j
  within : j ≤ (bytes source).length
  opens : (String.Pos.Raw.mk i).IsValid source
  closes : (String.Pos.Raw.mk j).IsValid source

variable {source text : String} {i j : Nat}

theorem length_bytes (source : String) : (bytes source).length = source.utf8ByteSize := by
  rw [bytes_eq_encode, length_encode, String.ofList_toList]

theorem slice?_isSome_iff : (slice? source i j).isSome = true ↔ Sliceable source i j := by
  unfold slice?
  split
  · next h =>
    have hwithin : j ≤ (bytes source).length := by
      rw [length_bytes]
      exact h.2.2.le_rawEndPos
    exact iff_of_true rfl ⟨h.1, hwithin, h.2.1, h.2.2⟩
  · next h =>
    refine iff_of_false Bool.false_ne_true ?_
    intro hslice
    exact h ⟨hslice.ordered, hslice.opens, hslice.closes⟩

theorem sliceable_of_slice? (h : slice? source i j = some text) : Sliceable source i j := by
  rw [← slice?_isSome_iff, h]
  rfl

end Source

namespace Piece

variable {c : Char} {cs lexeme : List Char} {kind : Kind} {x : Float} {text : String}

theorem regular_of_first (h : first c cs = token kind lexeme) : (token kind lexeme).Regular := by
  rcases first_cases c cs with hregular | ⟨-, hopen⟩ | ⟨-, hstray⟩
  · rwa [h] at hregular
  · rw [h] at hopen
    cases hopen
  · rw [h] at hstray
    cases hstray

theorem eq_of_first_stray {d : Char} (h : first c cs = stray d) : c = d := by
  rcases first_cases c cs with hregular | ⟨-, hopen⟩ | ⟨-, hstray⟩
  · rw [h] at hregular
    cases hregular
  · rw [h] at hopen
    cases hopen
  · rw [h] at hstray
    exact (stray.inj hstray).symm

theorem Regular.exists_body (h : (token (.string text) lexeme).Regular) :
    ∃ body, text = String.ofList body ∧ lexeme = ['"'] ++ body ++ ['"'] := by
  generalize hp : token (.string text) lexeme = p at h
  cases h with
  | string body =>
    cases hp
    exact ⟨body, rfl, rfl⟩
  | _ => cases hp

/-- The text of a number token is read as the number. -/
theorem Regular.exists_read (h : (token (.number x) lexeme).Regular) :
    ∃ d, Decimal.ofText? lexeme = some d ∧ d.toFloat = x := by
  generalize hp : token (.number x) lexeme = p at h
  cases h with
  | whole digits nonempty hdigits =>
    cases hp
    exact ⟨_, ByteScan.ofText?_whole nonempty hdigits, rfl⟩
  | fractional digits places nonempty hdigits nonempty' hplaces =>
    cases hp
    exact ⟨_, ByteScan.ofText?_fraction nonempty hdigits nonempty' hplaces, rfl⟩
  | _ => cases hp

end Piece

namespace ByteScan

section Reads

variable {α : Type} {source : String} {s : ByteCursor}

theorem isSome_ofOption (o : Option α) : (ofOption o source s).isSome = o.isSome := by
  cases o <;> rfl

/-- A byte is read exactly if there is one. -/
theorem isSome_byteAt_iff (i : Nat) :
    (byteAt i source s).isSome = true ↔ i < (bytes source).length := by
  change (ofOption (bytes source)[i]? source s).isSome = true ↔ _
  rw [isSome_ofOption, isSome_getElem?]

theorem isSome_slice_iff (i j : Nat) :
    (slice i j source s).isSome = true ↔ Sliceable source i j := by
  change (ofOption (slice? source i j) source s).isSome = true ↔ _
  rw [isSome_ofOption, slice?_isSome_iff]

end Reads

/-- One scan step, from the cursor that it starts at to the one that it leaves. -/
structure ScanStep where
  start : ByteCursor
  outcome : Except Diagnostic Unit
  stop : ByteCursor

namespace ScanStep

/-- A scan step that runs through. It goes on from where a character starts to where another one
does or to the end, and what it cuts out and reads there is there. -/
structure Safe (source : String) (step : ScanStep) : Prop where
  run : ∃ fuel, scanToken fuel source step.start = some (step.outcome, step.stop)
  begins : step.start.start = step.start.current
  forward : step.start.current < step.stop.current
  lexeme : Sliceable source step.start.current step.stop.current
  /-- The inside of a string is cut out between its quotes. -/
  contents : ∀ text, step.stop.pending = some (.string text) →
    slice? source (step.start.current + 1) (step.stop.current - 1) = some text
  /-- The text of a number is read as a decimal. -/
  number : ∀ x, step.stop.pending = some (.number x) → ∃ text d,
    slice? source step.start.current step.stop.current = some text ∧
      Decimal.ofText? text.toList = some d ∧ d.toFloat = x
  /-- What is reported as a stray character is a character of the source. -/
  stray : ∀ line c, step.outcome = .error (.lexical line (.strayCharacter c)) → ∃ text,
    slice? source step.start.current (bytes source).length = some text ∧
      text.toList.head? = some c ∧ step.stop.current = step.start.current + c.utf8Size

end ScanStep

/-- A call taken apart: the scan steps that it takes one after the other, its answer, and the cursor
after it. -/
inductive Call (source : String) :
    Nat → ByteCursor → List ScanStep → Option ScanItem → ByteCursor → Prop
  | ended {fuel s} (hover : (bytes source).length < s.current) : Call source (fuel + 1) s [] none s
  | endMark {fuel s} (hend : s.current = (bytes source).length) :
      Call source (fuel + 1) s [] (some (.ok (Token.endMark s.line)))
        { s with current := s.current + 1 }
  | reported {fuel s s' d} (hinside : s.current < (bytes source).length)
      (hrun : scanToken fuel source (starting s) = some (.error d, s')) :
      Call source (fuel + 1) s [⟨starting s, .error d, s'⟩] (some (.error d)) s'
  | found {fuel s s' kind text} (hinside : s.current < (bytes source).length)
      (hrun : scanToken fuel source (starting s) = some (.ok (), s'))
      (hpending : s'.pending = some kind) (htext : slice? source s'.start s'.current = some text) :
      Call source (fuel + 1) s [⟨starting s, .ok (), s'⟩] (some (.ok ⟨kind, text, s'.line⟩))
        (settled s')
  | onward {fuel s s' steps item s''} (hinside : s.current < (bytes source).length)
      (hrun : scanToken fuel source (starting s) = some (.ok (), s'))
      (hpending : s'.pending = none) (hrest : Call source fuel s' steps item s'') :
      Call source (fuel + 1) s (⟨starting s, .ok (), s'⟩ :: steps) item s''

/-- Call after call: the steps of all of them, and the answer to the last one. -/
inductive Calls (source : String) (fuel : Nat) :
    Nat → ByteCursor → List ScanStep → Option ScanItem → ByteCursor → Prop
  | last {s steps item s'} (hcall : Call source fuel s steps item s') :
      Calls source fuel 0 s steps item s'
  | more {n s steps first s' steps' item s''} (hcall : Call source fuel s steps first s')
      (hrest : Calls source fuel n s' steps' item s'') :
      Calls source fuel (n + 1) s (steps ++ steps') item s''

section Runs

variable {source : String} {s s' : ByteCursor} {fuel n : Nat} {steps : List ScanStep}
  {item : Option ScanItem}

/-- What a call is taken apart into is what its run does. -/
theorem Call.next_eq (h : Call source fuel s steps item s') :
    next fuel source s = some (item, s') := by
  induction h with
  | ended hover => exact next_ended hover
  | endMark hend => exact next_end hend
  | reported hinside hrun => rw [next_inside hinside, bind_of_some hrun, conclude_error]
  | found hinside hrun hpending htext =>
    rw [next_inside hinside, bind_of_some hrun, conclude_found hpending htext]
  | onward hinside hrun hpending hrest ih =>
    rw [next_inside hinside, bind_of_some hrun, conclude_silent hpending, ih]

/-- A run is taken apart in one way only. -/
theorem Call.steps_unique {steps' : List ScanStep} {item' : Option ScanItem} {s'' : ByteCursor}
    (h : Call source fuel s steps item s') (h' : Call source fuel s steps' item' s'') :
    steps = steps' := by
  -- Where the cursor is and what the step answers decide the rule, so other pairs are absurd.
  induction h generalizing steps' item' s'' with
  | ended hover =>
    cases h' with
    | ended => rfl
    | endMark hend => omega
    | reported hinside | found hinside | onward hinside => omega
  | endMark hend =>
    cases h' with
    | endMark => rfl
    | ended hover => omega
    | reported hinside | found hinside | onward hinside => omega
  | reported hinside hrun =>
    cases h' with
    | reported hinside' hrun' =>
      cases hrun.symm.trans hrun'
      rfl
    | found hinside' hrun' | onward hinside' hrun' => cases hrun.symm.trans hrun'
    | ended hover => omega
    | endMark hend => omega
  | found hinside hrun hpending =>
    cases h' with
    | found hinside' hrun' =>
      cases hrun.symm.trans hrun'
      rfl
    | onward hinside' hrun' hnone =>
      cases hrun.symm.trans hrun'
      cases hpending.symm.trans hnone
    | reported hinside' hrun' => cases hrun.symm.trans hrun'
    | ended hover => omega
    | endMark hend => omega
  | onward hinside hrun hnone hrest ih =>
    cases h' with
    | onward hinside' hrun' hnone' hrest' =>
      cases hrun.symm.trans hrun'
      rw [ih hrest']
    | found hinside' hrun' hpending =>
      cases hrun.symm.trans hrun'
      cases hpending.symm.trans hnone
    | reported hinside' hrun' => cases hrun.symm.trans hrun'
    | ended hover => omega
    | endMark hend => omega

theorem Calls.answer_eq (h : Calls source fuel n s steps item s') :
    answer fuel n source s = some (item, s') := by
  induction h with
  | last hcall => exact hcall.next_eq
  | more hcall hrest ih =>
    rw [answer, bind_of_some (discard_of_some hcall.next_eq)]
    exact ih

theorem Calls.steps_unique {steps' : List ScanStep} {item' : Option ScanItem} {s'' : ByteCursor}
    (h : Calls source fuel n s steps item s') (h' : Calls source fuel n s steps' item' s'') :
    steps = steps' := by
  induction h generalizing steps' item' s'' with
  | last hcall =>
    cases h' with
    | last hcall' => exact hcall.steps_unique hcall'
  | more hcall hrest ih =>
    cases h' with
    | more hcall' hrest' =>
      rw [hcall.steps_unique hcall']
      cases hcall.next_eq.symm.trans hcall'.next_eq
      rw [ih hrest']

end Runs

section Steps

variable {source : String} {before after cs lexeme : List Char} {c : Char} {s : ByteCursor}
  {fuel : Nat} {p : Piece} {text : String}

theorem lt_past (hnonempty : p.chars ≠ []) : s.current < (s.past p).current := by
  have hpositive : 0 < (encode p.chars).length :=
    (List.length_pos_iff.mpr hnonempty).trans_le (length_le_encode p.chars)
  have hpast : (s.past p).current = s.current + (encode p.chars).length := rfl
  omega

theorem slice?_contents (hregular : (Piece.token (.string text) lexeme).Regular)
    (h : s.Stands source before (lexeme ++ after)) :
    slice? source (s.current + 1) ((s.past (.token (.string text) lexeme)).current - 1) =
      some text := by
  obtain ⟨body, rfl, rfl⟩ := hregular.exists_body
  have hpast : (s.past (.token (.string (String.ofList body)) (['"'] ++ body ++ ['"']))).current =
      (encode (before ++ (['"'] ++ body ++ ['"']))).length := (stands_past h).current
  have hsource : source.toList = (before ++ ['"']) ++ body ++ ('"' :: after) := by
    rw [h.text]
    simp only [List.append_assoc, List.singleton_append]
  rw [hpast, h.current, slice_quoted hsource]

/-- The step that takes a piece. -/
def stepOver (s : ByteCursor) (p : Piece) : ScanStep :=
  ⟨s, p.scanned (s.line + p.newlines), s.past p⟩

theorem safe_stepOver (h : s.Begins source before (c :: cs))
    (hfuel : (bytes source).length < fuel) : (stepOver s (Piece.first c cs)).Safe source := by
  have htakes : Takes fuel source s (Piece.first c cs) := takes_first h hfuel
  obtain ⟨after, hchars, -, -⟩ := Piece.exists_split_first c cs
  have hnonempty := Piece.first_chars_ne_nil c cs
  have hstands : s.Stands source before ((Piece.first c cs).chars ++ after) := hchars ▸ h.toStands
  generalize hfirst : Piece.first c cs = p at *
  -- What is cut out besides the text of the piece depends on the kind of the piece.
  refine ⟨⟨fuel, htakes⟩, h.start.trans h.current.symm, lt_past hnonempty,
    sliceable_of_slice? (slice?_past hstands), ?_, ?_, ?_⟩
  · intro text hpending
    cases p with
    | token kind lexeme =>
      cases hpending
      exact slice?_contents (Piece.regular_of_first hfirst) hstands
    | blank | comment | openString | stray => cases hpending
  · intro x hpending
    cases p with
    | token kind lexeme =>
      cases hpending
      obtain ⟨d, hread, hvalue⟩ := (Piece.regular_of_first hfirst).exists_read
      refine ⟨String.ofList lexeme, d, slice?_past hstands, ?_, hvalue⟩
      rw [String.toList_ofList, hread]
    | blank | comment | openString | stray => cases hpending
  · intro line d houtcome
    cases p with
    | stray e =>
      cases houtcome
      obtain rfl : c = d := Piece.eq_of_first_stray hfirst
      refine ⟨String.ofList (c :: cs), slice?_rest h.toStands, ?_, ?_⟩
      · rw [String.toList_ofList, List.head?_cons]
      · rw [← length_encode_singleton]
        rfl
    | blank | comment | token | openString => cases houtcome

end Steps

section Existence

variable {source : String} {before rest : List Char} {s : ByteCursor} {fuel : Nat}

/-- A call is taken apart into safe steps. -/
theorem exists_call_of_stands (h : s.Stands source before rest)
    (hfuel : (bytes source).length + rest.length < fuel) :
    ∃ steps item s', Call source fuel s steps item s' ∧ ∀ step ∈ steps, step.Safe source := by
  -- Each step takes at least one character off the rest, which the fuel is enough for.
  induction fuel generalizing before rest s with
  | zero => exact absurd hfuel (Nat.not_lt_zero _)
  | succ fuel ih =>
    cases rest with
    | nil =>
      exact ⟨[], _, _, .endMark h.at_end, fun step hstep => nomatch hstep⟩
    | cons c cs =>
      obtain ⟨after, hchars, -, hlength⟩ := Piece.exists_split_first c cs
      rw [List.length_cons] at hfuel
      have hbytes : (bytes source).length < fuel := by omega
      have hbegins := begins_starting h
      have hsafe := safe_stepOver hbegins hbytes
      have htakes : Takes fuel source (starting s) (Piece.first c cs) := takes_first hbegins hbytes
      rw [hchars] at hbegins
      have hafter := stands_past hbegins.toStands
      have htext := slice?_past hbegins.toStands
      generalize Piece.first c cs = p at *
      cases p with
      | blank | comment =>
        obtain ⟨steps, item, s', hcall, hsteps⟩ := ih hafter (by omega)
        exact ⟨_, item, s', .onward h.inside htakes rfl hcall,
          List.forall_mem_cons.mpr ⟨hsafe, hsteps⟩⟩
      | token kind lexeme =>
        exact ⟨_, _, _, .found h.inside htakes rfl htext, List.forall_mem_singleton.mpr hsafe⟩
      | openString | stray =>
        exact ⟨_, _, _, .reported h.inside htakes, List.forall_mem_singleton.mpr hsafe⟩

variable {scanner : Scanner}

/-- And so is a call at the end or past it. The answer is that of a scanner of pieces. -/
theorem exists_call (h : scanner.Abreast source before rest s)
    (hfuel : 2 * (bytes source).length < fuel) :
    ∃ steps before' rest' s', Call source fuel s steps scanner.next.1 s' ∧
      scanner.next.2.Abreast source before' rest' s' ∧ ∀ step ∈ steps, step.Safe source := by
  have hcall : ∃ steps item s', Call source fuel s steps item s' ∧
      ∀ step ∈ steps, step.Safe source := by
    by_cases hended : scanner.ended = true
    · obtain ⟨fuel, rfl⟩ := Nat.exists_eq_succ_of_ne_zero (Nat.ne_zero_of_lt hfuel)
      exact ⟨[], none, s, .ended (h.past_end hended), fun step hstep => nomatch hstep⟩
    · have hstands := h.stands hended
      have hlength := (length_le_encode rest).trans hstands.length_le
      exact exists_call_of_stands hstands (by omega)
  obtain ⟨steps, item, s', hcall, hsafe⟩ := hcall
  -- The call runs as it is taken apart, so it is abreast of the other scanner where it ends.
  obtain ⟨taken, after, s₁, -, hrun, habreast, -⟩ := next_abreast h hfuel
  have hsame := hcall.next_eq.symm.trans hrun
  cases hsame
  exact ⟨steps, _, _, _, hcall, habreast, hsafe⟩

theorem exists_calls (n : Nat) (h : scanner.Abreast source before rest s)
    (hfuel : 2 * (bytes source).length < fuel) :
    ∃ steps s', Calls source fuel n s steps (scanner.answer n) s' ∧
      s'.current ≤ (bytes source).length + 1 ∧ ∀ step ∈ steps, step.Safe source := by
  induction n generalizing before rest s scanner with
  | zero =>
    obtain ⟨steps, before', rest', s', hcall, habreast, hsafe⟩ := exists_call h hfuel
    exact ⟨steps, s', .last hcall, habreast.current_le, hsafe⟩
  | succ n ih =>
    obtain ⟨steps, before', rest', s', hcall, habreast, hsafe⟩ := exists_call h hfuel
    obtain ⟨steps', s'', hcalls, hcurrent, hsafe'⟩ := ih habreast
    exact ⟨steps ++ steps', s'', .more hcall hcalls, hcurrent,
      List.forall_mem_append.mpr ⟨hsafe, hsafe'⟩⟩

end Existence

/-- The cursor is safe. Reads of bytes and cuts of texts have a result where they are within bounds
and where characters start, and only there; and whatever the source, and however many calls come
before, a call has an answer, with any fuel above twice the bytes. All scan steps of the calls are
safe: each begins and ends where characters do and moves on, and what it cuts out and reads on the
way is there. -/
theorem cursor_safe (source : String) (n : Nat) {fuel : Nat}
    (hfuel : 2 * (bytes source).length < fuel) :
    (∀ i s, (byteAt i source s).isSome = true ↔ i < (bytes source).length) ∧
    (∀ i j s, (slice i j source s).isSome = true ↔ Sliceable source i j) ∧
    ∃ steps s, Calls source fuel n .first steps ((Scanner.ofSource source).answer n) s ∧
      answer fuel n source .first = some ((Scanner.ofSource source).answer n, s) ∧
      s.current ≤ (bytes source).length + 1 ∧ (∀ step ∈ steps, step.Safe source) ∧
      ∀ steps' item s', Calls source fuel n .first steps' item s' → steps' = steps := by
  have hstart : (Scanner.ofSource source).Abreast source [] source.toList .first :=
    ⟨rfl, rfl, fun h => absurd h Bool.false_ne_true, rfl, rfl, rfl⟩
  obtain ⟨steps, s, hcalls, hcurrent, hsafe⟩ := exists_calls n hstart hfuel
  exact ⟨fun i s => isSome_byteAt_iff i, fun i j s => isSome_slice_iff i j, steps, s, hcalls,
    hcalls.answer_eq, hcurrent, hsafe, fun steps' item s' h => h.steps_unique hcalls⟩

/-- A string, a number and a stray character, two of them with wide characters. -/
theorem cursor_safe_wide :
    2 * (bytes "\"ü\" 1.5ß").length < 25 ∧
      ∃ steps s, Calls "\"ü\" 1.5ß" 25 2 .first steps
        (some (.error (.lexical 1 (.strayCharacter 'ß')))) s ∧
          ∀ step ∈ steps, step.Safe "\"ü\" 1.5ß" := by
  have hfuel : 2 * (bytes "\"ü\" 1.5ß").length < 25 := by decide +kernel
  have hanswer : (Scanner.ofSource "\"ü\" 1.5ß").answer 2 =
      some (.error (.lexical 1 (.strayCharacter 'ß'))) := rfl
  obtain ⟨-, -, steps, s, hcalls, -, -, hsafe, -⟩ := cursor_safe "\"ü\" 1.5ß" 2 hfuel
  rw [hanswer] at hcalls
  exact ⟨hfuel, steps, s, hcalls, hsafe⟩

end ByteScan

end TreeWalk
