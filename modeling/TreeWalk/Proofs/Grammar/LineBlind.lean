import TreeWalk.Proofs.Grammar.Clean

/-! Rules on tokens whose lines are left open. All choices of lines are parsed at once: the rules
take the same tokens and come out alike, so the results are related to the tokens taken and not to
the lines. -/

namespace TreeWalk

/-- The same token on another line. -/
def Token.onLine (t : Token) (line : Nat) : Token :=
  { t with line := line }

variable {ι : Type} {base : ι → Token}

/-- Whatever the lines, the tokens at these indices are still to be parsed. -/
structure Cursor.Spans (base : ι → Token) (indices : List ι) (s : (ι → Nat) → Cursor) : Prop where
  rest : ∀ lines, (s lines).rest = indices.map fun i => (base i).onLine (lines i)
  stop : ∀ lines, (s lines).stop.isEnd = true

namespace Cursor.Spans

variable {indices : List ι} {s : (ι → Nat) → Cursor}

theorem length (h : Spans base indices s) (lines : ι → Nat) :
    (s lines).rest.length = indices.length := by
  rw [h.rest, List.length_map]

theorem head_cons {i : ι} {rest : List ι} (h : Spans base (i :: rest) s) (lines : ι → Nat) :
    (s lines).head = (base i).onLine (lines i) := by
  rw [head, h.rest]
  rfl

theorem head_nil (h : Spans base [] s) (lines : ι → Nat) : (s lines).head = (s lines).stop := by
  rw [head, h.rest]
  rfl

/-- What else a cursor keeps does not matter. -/
theorem of_rest (h : Spans base indices s) {s' : (ι → Nat) → Cursor} {indices' : List ι}
    (hrest : ∀ lines, (s' lines).rest = indices'.map fun i => (base i).onLine (lines i))
    (hstop : ∀ lines, (s' lines).stop = (s lines).stop) : Spans base indices' s' :=
  ⟨hrest, fun lines => by rw [hstop]; exact h.stop lines⟩

end Cursor.Spans

namespace Rule

variable {α β γ : Type} {indices : List ι} {p : Token → Bool}

/-- Rules fail for all lines, or for all lines they yield a result. -/
inductive ComesOut (q : List ι → ((ι → Nat) → α) → Prop) (taken : List ι)
    (results : (ι → Nat) → Except Diagnostic α) : Prop where
  | failed (d : (ι → Nat) → Diagnostic) : (∀ lines, results lines = .error (d lines)) →
      ComesOut q taken results
  | done (a : (ι → Nat) → α) : (∀ lines, results lines = .ok (a lines)) → q taken a →
      ComesOut q taken results

/-- With the given tokens to be parsed, the rules take some of them, and the results have the
property `q` together with the tokens taken. -/
def TracesFrom (base : ι → Token) (indices : List ι) (q : List ι → ((ι → Nat) → α) → Prop)
    (r : (ι → Nat) → Rule α) : Prop :=
  ∀ s, Cursor.Spans base indices s → ∃ taken rest, indices = taken ++ rest ∧
    Cursor.Spans base rest (fun lines => (r lines (s lines)).2) ∧
      ComesOut q taken fun lines => (r lines (s lines)).1

/-- Whatever tokens are to be parsed. -/
def Traces (base : ι → Token) (q : List ι → ((ι → Nat) → α) → Prop)
    (r : (ι → Nat) → Rule α) : Prop :=
  ∀ indices, TracesFrom base indices q r

namespace TracesFrom

variable {q : List ι → ((ι → Nat) → α) → Prop} {r : (ι → Nat) → Rule α}

theorem mono {q' : List ι → ((ι → Nat) → α) → Prop} (h : TracesFrom base indices q r)
    (hq : ∀ taken a, q taken a → q' taken a) : TracesFrom base indices q' r := by
  intro s hs
  obtain ⟨taken, rest, hindices, hrest, hout⟩ := h s hs
  refine ⟨taken, rest, hindices, hrest, ?_⟩
  cases hout with
  | failed d hd => exact .failed d hd
  | done a ha hqa => exact .done a ha (hq taken a hqa)

/-- An action that takes nothing. -/
theorem of_stay {a : (ι → Nat) → α} (hq : q [] a)
    (hr : ∀ lines s, (r lines s).1 = .ok (a lines) ∧ (r lines s).2.rest = s.rest ∧
      (r lines s).2.stop = s.stop) : TracesFrom base indices q r := by
  intro s hs
  refine ⟨[], indices, rfl, hs.of_rest (fun lines => ?_) fun lines => (hr lines _).2.2,
    .done a (fun lines => (hr lines _).1) hq⟩
  rw [(hr lines (s lines)).2.1, hs.rest]

theorem pure {a : (ι → Nat) → α} (hq : q [] a) :
    TracesFrom base indices q fun lines => pure (a lines) :=
  of_stay hq fun _ _ => ⟨rfl, rfl, rfl⟩

theorem fail {cause : SyntacticCause} : TracesFrom base indices q fun _ => fail cause := by
  intro s hs
  exact ⟨[], indices, rfl, hs, .failed (fun lines => .syntactic (s lines).head cause) fun _ => rfl⟩

theorem congr {r' : (ι → Nat) → Rule α} (h : TracesFrom base indices q r')
    (hsame : ∀ s, Cursor.Spans base indices s → ∀ lines, r lines (s lines) = r' lines (s lines)) :
    TracesFrom base indices q r := by
  intro s hs
  simp only [hsame s hs]
  exact h s hs

/-- Passing over a token that is there. -/
theorem skip {i : ι} {rest : List ι} :
    TracesFrom base (i :: rest) (fun taken _ => taken = [i]) fun _ => skip := by
  intro s hs
  refine ⟨[i], rest, rfl, hs.of_rest (fun lines => ?_) fun _ => rfl,
    .done (fun _ => ()) (fun _ => rfl) rfl⟩
  change (s lines).rest.tail = _
  rw [hs.rest]
  rfl

/-- The tokens of two rules one after the other. -/
theorem bind {q' : List ι → ((ι → Nat) → β) → Prop} {f : (ι → Nat) → α → Rule β}
    (hr : TracesFrom base indices q r)
    (hf : ∀ taken a, q taken a →
      Traces base (fun later b => q' (taken ++ later) b) fun lines => f lines (a lines)) :
    TracesFrom base indices q' fun lines => r lines >>= f lines := by
  intro s hs
  obtain ⟨taken, rest, rfl, hrest, hout⟩ := hr s hs
  cases hout with
  | failed d hd =>
    have hfails (lines : ι → Nat) : (r lines >>= f lines) (s lines) =
        (.error (d lines), (r lines (s lines)).2) := by
      rw [bind_apply]
      cases hrun : r lines (s lines) with
      | mk result s' =>
        have hresult := hd lines
        rw [hrun] at hresult
        cases hresult
        rfl
    refine ⟨taken, rest, rfl, ?_, .failed d fun lines => congrArg Prod.fst (hfails lines)⟩
    simpa only [hfails] using hrest
  | done a ha hqa =>
    have hgoes (lines : ι → Nat) : (r lines >>= f lines) (s lines) =
        f lines (a lines) (r lines (s lines)).2 := by
      rw [bind_apply]
      cases hrun : r lines (s lines) with
      | mk result s' =>
        have hresult := ha lines
        rw [hrun] at hresult
        cases hresult
        rfl
    obtain ⟨later, rest', rfl, hrest', hout'⟩ := hf taken a hqa rest _ hrest
    refine ⟨taken ++ later, rest', (List.append_assoc ..).symm, ?_, ?_⟩
    · simpa only [hgoes] using hrest'
    · simp only [hgoes]
      cases hout' with
      | failed d hd => exact .failed d hd
      | done b hb hqb => exact .done b hb hqb

end TracesFrom

namespace Traces

variable {q : List ι → ((ι → Nat) → α) → Prop} {r r' : (ι → Nat) → Rule α}

theorem mono {q' : List ι → ((ι → Nat) → α) → Prop} (h : Traces base q r)
    (hq : ∀ taken a, q taken a → q' taken a) : Traces base q' r :=
  fun indices => (h indices).mono hq

theorem pure {a : (ι → Nat) → α} (hq : q [] a) : Traces base q fun lines => pure (a lines) :=
  fun _ => .pure hq

theorem fail {cause : SyntacticCause} : Traces base q fun _ => Rule.fail cause :=
  fun _ => .fail

theorem bind {q' : List ι → ((ι → Nat) → β) → Prop} {f : (ι → Nat) → α → Rule β}
    (hr : Traces base q r)
    (hf : ∀ taken a, q taken a →
      Traces base (fun later b => q' (taken ++ later) b) fun lines => f lines (a lines)) :
    Traces base q' fun lines => r lines >>= f lines :=
  fun indices => (hr indices).bind hf

theorem discard (hr : Traces base q r) :
    Traces base (fun _ _ => True) fun lines => discard (r lines) := by
  have hunit : Traces base (fun _ _ => True) fun lines => r lines >>= fun _ => Pure.pure () :=
    hr.bind fun _ _ _ => .pure trivial
  have hsame (lines : ι → Nat) :
      Functor.discard (r lines) = r lines >>= fun _ => Pure.pure () := by
    change (fun _ => ()) <$> r lines = _
    rw [map_eq_pure_bind]
  simpa only [hsame] using hunit

theorem ite {b : Prop} [Decidable b] (hr : Traces base q r) (hr' : Traces base q r') :
    Traces base q fun lines => if b then r lines else r' lines := by
  split
  · exact hr
  · exact hr'

/-- How many tokens are left does not depend on their lines. -/
theorem length_bind {f : (ι → Nat) → Nat → Rule α}
    (hf : ∀ n, Traces base q fun lines => f lines n) :
    Traces base q fun lines => get >>= fun s => f lines s.rest.length := by
  intro indices s hs
  have hsame (lines : ι → Nat) : (get >>= fun s => f lines s.rest.length) (s lines) =
      f lines indices.length (s lines) := by
    rw [bind_apply]
    exact congrArg (fun n => f lines n (s lines)) (hs.length lines)
  simp only [hsame]
  exact hf indices.length indices s hs

theorem freshId : Traces base (fun taken _ => taken = []) fun _ => Rule.freshId := by
  intro indices s hs
  exact ⟨[], indices, rfl, hs.of_rest hs.rest fun _ => rfl,
    .done (fun lines => (s lines).nextId) (fun _ => rfl) rfl⟩

end Traces

section Taking

/-- Reports are no results. -/
theorem modify_report_traces (d : (ι → Nat) → Cursor → Diagnostic) :
    Traces base (fun taken _ => taken = []) fun lines =>
      (modify fun s => s.report (d lines s) : Rule Unit) :=
  fun _ => .of_stay (a := fun _ => ()) rfl fun _ _ => ⟨rfl, rfl, rfl⟩

/-- Whether a token is of a kind, wherever it stands. -/
abbrev Lineless (p : Token → Bool) : Prop :=
  ∀ t line, p (t.onLine line) = p t

variable (hp : Lineless p)
include hp

theorem accept?_traces : Traces base (fun taken o => (taken = [] ∧ o = fun _ => none) ∨
    ∃ i, taken = [i] ∧ o = fun lines => some ((base i).onLine (lines i))) fun _ => accept? p := by
  intro indices s hs
  have hnone (h : ∀ lines, accept? p (s lines) = (.ok none, s lines)) :
      ∃ taken rest, indices = taken ++ rest ∧
        Cursor.Spans base rest (fun lines => (accept? p (s lines)).2) ∧
        ComesOut (fun taken o => (taken = [] ∧ o = fun _ => none) ∨
          ∃ i, taken = [i] ∧ o = fun lines => some ((base i).onLine (lines i))) taken
            fun lines => (accept? p (s lines)).1 := by
    refine ⟨[], indices, rfl, ?_, .done (fun _ => none) (fun lines => congrArg Prod.fst (h lines))
      (.inl ⟨rfl, rfl⟩)⟩
    simpa only [h] using hs
  cases indices with
  | nil =>
    refine hnone fun lines => ?_
    rw [accept?_apply, hs.rest]
    rfl
  | cons i rest =>
    have hhead (lines : ι → Nat) : (s lines).rest = (base i).onLine (lines i) ::
        rest.map fun j => (base j).onLine (lines j) := hs.rest lines
    cases hi : p (base i) with
    | false =>
      refine hnone fun lines => ?_
      rw [accept?_apply, hhead]
      dsimp only
      rw [hp, hi]
      rfl
    | true =>
      have htakes (lines : ι → Nat) : accept? p (s lines) =
          (.ok (some ((base i).onLine (lines i))), { s lines with
            rest := rest.map fun j => (base j).onLine (lines j) }) := by
        rw [accept?_apply, hhead]
        dsimp only
        rw [hp, hi]
        rfl
      refine ⟨[i], rest, rfl, ?_, .done _ (fun lines => congrArg Prod.fst (htakes lines))
        (.inr ⟨i, rfl, rfl⟩)⟩
      simp only [htakes]
      exact hs.of_rest (fun _ => rfl) fun _ => rfl

theorem accepts_traces :
    Traces base (fun _ yes => ∃ b, yes = fun _ => b) fun _ => accepts p := by
  unfold accepts
  refine (accept?_traces hp).bind fun taken o ho => ?_
  rcases ho with ⟨-, rfl⟩ | ⟨i, -, rfl⟩
  · exact .pure ⟨false, rfl⟩
  · exact .pure ⟨true, rfl⟩

theorem expect_traces {what : Expectation} :
    Traces base (fun taken t => ∃ i, taken = [i] ∧ t = fun lines => (base i).onLine (lines i))
      fun _ => expect p what := by
  unfold expect
  refine (accept?_traces hp).bind fun taken o ho => ?_
  rcases ho with ⟨rfl, rfl⟩ | ⟨i, rfl, rfl⟩
  · exact .fail
  · exact .pure ⟨i, rfl, rfl⟩

theorem sees_traces :
    Traces base (fun taken yes => taken = [] ∧ ∃ b, yes = fun _ => b) fun _ => sees p := by
  intro indices s hs
  refine ⟨[], indices, rfl, hs, .done (fun _ => indices.head?.any (p ∘ base)) (fun lines => ?_)
    ⟨rfl, _, rfl⟩⟩
  change Except.ok ((s lines).rest.head?.any p) = _
  rw [hs.rest]
  cases indices with
  | nil => rfl
  | cons i rest => exact congrArg Except.ok (hp (base i) (lines i))

theorem acceptWhile_traces :
    Traces base (fun taken ts => ∀ lines, (ts lines).length = taken.length)
      fun _ => acceptWhile p := by
  intro indices s hs
  have hsame (lines : ι → Nat) :
      (p ∘ fun i => (base i).onLine (lines i)) = p ∘ base := funext fun i => hp _ _
  refine ⟨indices.takeWhile (p ∘ base), indices.dropWhile (p ∘ base),
    List.takeWhile_append_dropWhile.symm, hs.of_rest (fun lines => ?_) fun _ => rfl,
    .done (fun lines => (s lines).rest.takeWhile p) (fun _ => rfl) fun lines => ?_⟩
  · change (s lines).rest.dropWhile p = _
    rw [hs.rest, List.dropWhile_map, hsame]
  · change ((s lines).rest.takeWhile p).length = _
    rw [hs.rest, List.takeWhile_map, hsame, List.length_map]

end Taking

section Items

variable {tooMany : SyntacticCause} {item : Rule α} {q : List ι → ((ι → Nat) → α) → Prop}
  {q' : List ι → ((ι → Nat) → List α) → Prop}

/-- A property of the items before that a comma and a further item keep. The number of items does
not depend on the lines. -/
theorem moreItems_traces (hitem : Traces base q fun _ => item)
    (hpast : ∀ taken comma as, q' taken as → q' (taken ++ comma) as)
    (hnext : ∀ taken later as a, q' taken as → q later a →
      q' (taken ++ later) fun lines => as lines ++ [a lines])
    (bound : Nat) {n : Nat} {taken : List ι} {items : (ι → Nat) → List α}
    (hlength : ∀ lines, (items lines).length = n) (hitems : q' taken items) :
    Traces base (fun later as => q' (taken ++ later) as)
      fun lines => moreItems tooMany item bound (items lines) := by
  induction bound generalizing n taken items with
  | zero => exact .pure (hpast taken [] items hitems)
  | succ bound ih =>
    simp only [moreItems]
    refine (accepts_traces fun _ _ => rfl).bind fun comma yes hyes => ?_
    obtain ⟨b, rfl⟩ := hyes
    have hcomma := hpast taken comma items hitems
    cases b with
    | false =>
      refine .pure ?_
      rw [List.append_nil]
      exact hcomma
    | true =>
      have hround : Traces base (fun later as => q' (taken ++ (comma ++ later)) as) fun lines =>
          item >>= fun a => moreItems tooMany item bound (items lines ++ [a]) := by
        refine hitem.bind fun later a ha => ?_
        have hmore := hnext _ _ _ _ hcomma ha
        have hlonger : ∀ lines, (items lines ++ [a lines]).length = n + 1 := fun lines => by
          rw [List.length_append, hlength, List.length_singleton]
        simpa only [List.append_assoc] using ih hlonger hmore
      simp only [↓reduceIte, hlength]
      refine .ite ?_ hround
      refine (modify_report_traces fun _ s => .syntactic s.head tooMany).bind fun none _ hnone => ?_
      subst hnone
      exact hround

theorem commaSeparated_traces (hitem : Traces base q fun _ => item)
    (hfirst : ∀ taken a, q taken a → q' taken fun lines => [a lines])
    (hpast : ∀ taken comma as, q' taken as → q' (taken ++ comma) as)
    (hnext : ∀ taken later as a, q' taken as → q later a →
      q' (taken ++ later) fun lines => as lines ++ [a lines]) :
    Traces base q' fun _ => commaSeparated tooMany item := by
  unfold commaSeparated
  refine hitem.bind fun taken a ha => ?_
  exact .length_bind fun bound =>
    moreItems_traces hitem hpast hnext bound (fun _ => List.length_singleton) (hfirst taken a ha)

end Items

end Rule

end TreeWalk
