import TreeWalk.Proofs.Grammar.Clean

/-! Runs of rules over tokens that are known in advance. Where a clean step says what a rule has
taken, these say that it will take it. -/

namespace TreeWalk.Rule

variable {α β : Type} {r : Rule α} {f : α → Rule β} {p : Token → Bool} {a : α} {b : β}
  {t : Token} {ts ts₁ ts₂ : List Token} {n n₁ n₂ : Nat}

/-- A rule goes from the tokens `ts` to the tokens `ts₁` and from the identity `n` to `n₁`, and
touches nothing else. -/
def Takes (r : Rule α) (ts : List Token) (n : Nat) (a : α) (ts₁ : List Token) (n₁ : Nat) : Prop :=
  ∀ stop reports, r ⟨ts, stop, reports, n⟩ = (.ok a, ⟨ts₁, stop, reports, n₁⟩)

/-- A token of a kind does not come next. -/
def Lacks (p : Token → Bool) (ts : List Token) : Prop :=
  ∀ t ∈ ts.head?, p t = false

theorem lacks_cons : Lacks p (t :: ts) ↔ p t = false := by
  simp [Lacks]

theorem lacks_nil : Lacks p [] := by
  simp [Lacks]

theorem lacks_punctuator {k : Punctuator} (h : t.kind ≠ .punctuator k) :
    Lacks (·.isPunctuator k) (t :: ts) :=
  lacks_cons.mpr (Token.isPunctuator_eq_false h)

theorem lacks_keyword {k : Keyword} (h : t.kind ≠ .keyword k) :
    Lacks (·.isKeyword k) (t :: ts) :=
  lacks_cons.mpr (Token.isKeyword_eq_false h)

namespace Takes

theorem pure : Takes (pure a) ts n a ts n := by
  intro stop reports
  rfl

theorem bind (hr : Takes r ts n a ts₁ n₁) (hf : Takes (f a) ts₁ n₁ b ts₂ n₂) :
    Takes (r >>= f) ts n b ts₂ n₂ := by
  intro stop reports
  rw [bind_apply, hr stop reports]
  exact hf stop reports

/-- What a rule does may depend on the whole cursor as long as the outcome does not. -/
theorem get_bind {f : Cursor → Rule β}
    (hf : ∀ stop reports, Takes (f ⟨ts, stop, reports, n⟩) ts n b ts₂ n₂) :
    Takes (get >>= f) ts n b ts₂ n₂ := by
  intro stop reports
  exact hf stop reports stop reports

theorem map {g : α → β} (hr : Takes r ts n a ts₁ n₁) : Takes (g <$> r) ts n (g a) ts₁ n₁ := by
  rw [map_eq_pure_bind]
  exact hr.bind pure

theorem discard (hr : Takes r ts n a ts₁ n₁) : Takes (discard r) ts n () ts₁ n₁ := by
  have h : Takes ((fun _ => PUnit.unit) <$> r) ts n PUnit.unit ts₁ n₁ := hr.map
  exact h

theorem freshId : Takes freshId ts n n ts (n + 1) := by
  intro stop reports
  rfl

theorem skip : Takes skip (t :: ts) n () ts n := by
  intro stop reports
  rfl

theorem sees {yes : Bool} (hp : p t = yes) : Takes (sees p) (t :: ts) n yes (t :: ts) n := by
  intro stop reports
  rw [← hp]
  rfl

theorem accept? (hp : p t = true) : Takes (accept? p) (t :: ts) n (some t) ts n := by
  intro stop reports
  rw [accept?_apply]
  simp only [hp, ↓reduceIte]

theorem accept?_none (h : Lacks p ts) : Takes (Rule.accept? p) ts n none ts n := by
  intro stop reports
  rw [accept?_apply]
  cases ts with
  | nil => rfl
  | cons t ts => simp only [lacks_cons.mp h, Bool.false_eq_true, ↓reduceIte]

theorem accepts (hp : p t = true) : Takes (accepts p) (t :: ts) n true ts n := by
  unfold Rule.accepts
  exact (accept? hp).bind pure

theorem accepts_false (h : Lacks p ts) : Takes (Rule.accepts p) ts n false ts n := by
  unfold Rule.accepts
  exact (accept?_none h).bind pure

theorem expect {what : Expectation} (hp : p t = true) :
    Takes (expect p what) (t :: ts) n t ts n := by
  unfold Rule.expect
  exact (accept? hp).bind pure

theorem acceptWhile (hts : ∀ t ∈ ts, p t = true) (h : Lacks p ts₁) :
    Takes (acceptWhile p) (ts ++ ts₁) n ts ts₁ n := by
  intro stop reports
  have htake : (ts ++ ts₁).takeWhile p = ts := by
    rw [List.takeWhile_append_of_pos hts]
    cases ts₁ with
    | nil => simp
    | cons t ts₁ => simp [lacks_cons.mp h]
  have hdrop : (ts ++ ts₁).dropWhile p = ts₁ := by
    rw [List.dropWhile_append_of_pos hts]
    cases ts₁ with
    | nil => rfl
    | cons t ts₁ => simp [lacks_cons.mp h]
  change (Except.ok ((ts ++ ts₁).takeWhile p), Cursor.mk ((ts ++ ts₁).dropWhile p) _ _ _) = _
  rw [htake, hdrop]

theorem of_apply {r' : Rule α} (h : Takes r ts n a ts₁ n₁)
    (hr : ∀ stop reports, r' ⟨ts, stop, reports, n⟩ = r ⟨ts, stop, reports, n⟩) :
    Takes r' ts n a ts₁ n₁ := by
  intro stop reports
  rw [hr]
  exact h stop reports

theorem liftM_iff {action : StateM Cursor α} : Takes (liftM action) ts n a ts₁ n₁ ↔
    ∀ stop reports, action ⟨ts, stop, reports, n⟩ = (a, ⟨ts₁, stop, reports, n₁⟩) := by
  refine forall_congr' fun stop => forall_congr' fun reports => ?_
  rw [liftM_apply]
  cases action ⟨ts, stop, reports, n⟩ with
  | mk b s =>
    constructor
    · intro h
      cases h
      rfl
    · intro h
      cases h
      rfl

end Takes

/-- After the tokens up to `ts₁` the rule `r` goes on as the rule `r'`. -/
def Becomes (r : Rule α) (ts : List Token) (n : Nat) (r' : Rule α) (ts₁ : List Token)
    (n₁ : Nat) : Prop :=
  ∀ stop reports, r ⟨ts, stop, reports, n⟩ = r' ⟨ts₁, stop, reports, n₁⟩

namespace Becomes

variable {r' r'' : Rule α}

theorem trans (h : Becomes r ts n r' ts₁ n₁) (h' : Becomes r' ts₁ n₁ r'' ts₂ n₂) :
    Becomes r ts n r'' ts₂ n₂ := by
  intro stop reports
  exact (h stop reports).trans (h' stop reports)

theorem bind {r : Rule β} {f : β → Rule α} (hr : Takes r ts n b ts₁ n₁) :
    Becomes (r >>= f) ts n (f b) ts₁ n₁ := by
  intro stop reports
  rw [bind_apply, hr stop reports]

theorem takes (h : Becomes r ts n r' ts₁ n₁) (h' : Takes r' ts₁ n₁ a ts₂ n₂) :
    Takes r ts n a ts₂ n₂ := by
  intro stop reports
  exact (h stop reports).trans (h' stop reports)

end Becomes

/-- A rule comes to a round of a loop with a bound that is enough for the tokens left. -/
def Reaches (r : Rule α) (ts : List Token) (n : Nat) (loop : Nat → Rule α) (ts₁ : List Token)
    (n₁ : Nat) : Prop :=
  ∃ bound, ts₁.length ≤ bound ∧ Becomes r ts n (loop bound) ts₁ n₁

namespace Reaches

variable {loop loop' : Nat → Rule α}

/-- A round of the loop takes a token, so the bound stays enough. -/
theorem step (h : Reaches r ts n loop ts₁ n₁) (hlen : ts₂.length < ts₁.length)
    (hround : ∀ bound, Becomes (loop (bound + 1)) ts₁ n₁ (loop' bound) ts₂ n₂) :
    Reaches r ts n loop' ts₂ n₂ := by
  obtain ⟨bound, hbound, hr⟩ := h
  obtain ⟨bound, rfl⟩ := Nat.exists_eq_succ_of_ne_zero (show bound ≠ 0 by omega)
  exact ⟨bound, by omega, hr.trans (hround bound)⟩

theorem takes (h : Reaches r ts n loop ts₁ n₁)
    (hend : ∀ bound, Takes (loop bound) ts₁ n₁ a ts₂ n₂) : Takes r ts n a ts₂ n₂ := by
  obtain ⟨bound, -, hr⟩ := h
  exact hr.takes (hend bound)

end Reaches

end TreeWalk.Rule
