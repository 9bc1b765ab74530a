import TreeWalk.Grammar.Parse

/-! Clean steps of parsing: those that succeed and add no report. Every rule only ever adds
reports, so a clean whole has clean parts. -/

namespace TreeWalk.Rule

variable {α β : Type}

/-- A rule keeps the reports made before it and the end mark, and never draws an identity again,
whether or not it succeeds. -/
class Grows (r : Rule α) : Prop where
  reports : ∀ s, s.reports <+: (r s).2.reports
  stop : ∀ s, (r s).2.stop = s.stop
  nextId : ∀ s, s.nextId ≤ (r s).2.nextId

/-- A rule succeeds from one cursor to another and adds no report. The tokens end in an end mark,
as they always do. -/
structure Clean (r : Rule α) (s : Cursor) (a : α) (s' : Cursor) : Prop where
  result : r s = (.ok a, s')
  reports : s'.reports = s.reports
  ended : s.stop.isEnd = true

theorem liftM_apply (action : StateM Cursor α) (s : Cursor) :
    (liftM action : Rule α) s = (.ok (action s).1, (action s).2) :=
  rfl

theorem declaration_apply (s : Cursor) :
    (liftM declaration : Rule _) s = (liftM (declarationUpTo (s.rest.length + 1)) : Rule _) s := by
  rw [liftM_apply, liftM_apply, declaration]

section Grows

/-- A rule that chooses another rule by the cursor grows if all its choices do. -/
theorem Grows.of_apply {r : Rule α} (h : ∀ s, ∃ r' : Rule α, r s = r' s ∧ Grows r') : Grows r where
  reports s := by
    obtain ⟨r', hr, hg⟩ := h s
    rw [hr]
    exact hg.reports s
  stop s := by
    obtain ⟨r', hr, hg⟩ := h s
    rw [hr]
    exact hg.stop s
  nextId s := by
    obtain ⟨r', hr, hg⟩ := h s
    rw [hr]
    exact hg.nextId s

instance (a : α) : Grows (pure a : Rule α) where
  reports _ := List.prefix_rfl
  stop _ := rfl
  nextId _ := Nat.le_refl _

theorem Grows.bind {r : Rule α} {f : α → Rule β} (hr : Grows r) (hf : ∀ a, Grows (f a)) :
    Grows (r >>= f) where
  reports s := by
    have h := hr.reports s
    rw [bind_apply]
    cases hs : r s with
    | mk result s₁ =>
      rw [hs] at h
      cases result with
      | ok a => exact h.trans ((hf a).reports s₁)
      | error d => exact h
  stop s := by
    have h := hr.stop s
    rw [bind_apply]
    cases hs : r s with
    | mk result s₁ =>
      rw [hs] at h
      cases result with
      | ok a => exact ((hf a).stop s₁).trans h
      | error d => exact h
  nextId s := by
    have h := hr.nextId s
    rw [bind_apply]
    cases hs : r s with
    | mk result s₁ =>
      rw [hs] at h
      cases result with
      | ok a => exact Nat.le_trans h ((hf a).nextId s₁)
      | error d => exact h

instance (r : Rule α) (f : α → Rule β) [hr : Grows r] [hf : ∀ a, Grows (f a)] :
    Grows (r >>= f) :=
  hr.bind hf

instance (g : α → β) (r : Rule α) [Grows r] : Grows (g <$> r) := by
  rw [map_eq_pure_bind]
  infer_instance

instance (r : Rule α) [Grows r] : Grows (discard r) :=
  inferInstanceAs (Grows ((fun _ => PUnit.unit) <$> r))

theorem Grows.ite {c : Prop} [Decidable c] {r r' : Rule α} (hr : Grows r) (hr' : Grows r') :
    Grows (if c then r else r') := by
  split
  · exact hr
  · exact hr'

instance (c : Prop) [Decidable c] (r r' : Rule α) [hr : Grows r] [hr' : Grows r'] :
    Grows (if c then r else r') :=
  hr.ite hr'

instance : Grows (get : Rule Cursor) where
  reports _ := List.prefix_rfl
  stop _ := rfl
  nextId _ := Nat.le_refl _

instance (cause : SyntacticCause) : Grows (fail cause : Rule α) where
  reports _ := List.prefix_rfl
  stop _ := rfl
  nextId _ := Nat.le_refl _

instance (d : Diagnostic) : Grows (modify (·.report d) : Rule Unit) where
  reports s := List.prefix_append s.reports [d]
  stop _ := rfl
  nextId _ := Nat.le_refl _

instance (cause : SyntacticCause) : Grows (complain cause) where
  reports s := List.prefix_append s.reports _
  stop _ := rfl
  nextId _ := Nat.le_refl _

instance : Grows skip where
  reports _ := List.prefix_rfl
  stop _ := rfl
  nextId _ := Nat.le_refl _

instance (p : Token → Bool) : Grows (sees p) where
  reports _ := List.prefix_rfl
  stop _ := rfl
  nextId _ := Nat.le_refl _

instance : Grows freshId where
  reports _ := List.prefix_rfl
  stop _ := rfl
  nextId s := Nat.le_succ s.nextId

instance (p : Token → Bool) : Grows (acceptWhile p) where
  reports _ := List.prefix_rfl
  stop _ := rfl
  nextId _ := Nat.le_refl _

instance (p : Token → Bool) : Grows (accept? p) where
  reports s := by
    rw [accept?_apply]
    split
    · split <;> exact List.prefix_rfl
    · exact List.prefix_rfl
  stop s := by
    rw [accept?_apply]
    split
    · split <;> rfl
    · rfl
  nextId s := by
    rw [accept?_apply]
    split
    · split <;> exact Nat.le_refl _
    · exact Nat.le_refl _

instance (p : Token → Bool) : Grows (accepts p) := by
  unfold accepts
  infer_instance

instance (p : Token → Bool) (what : Expectation) : Grows (expect p what) := by
  unfold expect
  refine Grows.bind inferInstance fun result => ?_
  cases result <;> infer_instance

end Grows

namespace Clean

variable {r : Rule α} {f : α → Rule β} {s s' : Cursor} {a : α} {b : β} {p : Token → Bool}

theorem congr {r' : Rule α} (h : Clean r s a s') (hr : r s = r' s) : Clean r' s a s' :=
  ⟨hr ▸ h.result, h.reports, h.ended⟩

theorem of_pure {a' : α} (h : Clean (pure a) s a' s') : a' = a ∧ s' = s := by
  have hr := h.result
  rw [pure_apply] at hr
  cases hr
  exact ⟨rfl, rfl⟩

/-- Both parts of a clean sequence are clean, since the second one takes no report back. -/
theorem of_bind [hr : Grows r] [hf : ∀ a, Grows (f a)] (h : Clean (r >>= f) s b s') :
    ∃ a s₁, Clean r s a s₁ ∧ Clean (f a) s₁ b s' := by
  have hs := h.result
  have h₁ := hr.reports s
  have hstop := hr.stop s
  rw [bind_apply] at hs
  cases hrs : r s with
  | mk result s₁ =>
    rw [hrs] at hs h₁ hstop
    cases result with
    | error d => cases hs
    | ok a =>
      have h₂ := (hf a).reports s₁
      rw [show f a s₁ = (.ok b, s') from hs] at h₂
      have hlen : s₁.reports.length = s.reports.length := by
        have := h₁.length_le
        have := h₂.length_le
        have := congrArg List.length h.reports
        simp only at *
        omega
      have he : s₁.reports = s.reports := (h₁.eq_of_length hlen.symm).symm
      have hended : s₁.stop.isEnd = true := by rw [← h.ended, ← hstop]
      exact ⟨a, s₁, ⟨hrs, he, h.ended⟩, hs, h.reports.trans he.symm, hended⟩

theorem of_bind_of_grows [Grows r] (h : Clean (r >>= f) s b s') (hf : ∀ a, Grows (f a)) :
    ∃ a s₁, Clean r s a s₁ ∧ Clean (f a) s₁ b s' :=
  h.of_bind

theorem of_map {g : α → β} [Grows r] (h : Clean (g <$> r) s b s') :
    ∃ a, Clean r s a s' ∧ b = g a := by
  rw [map_eq_pure_bind] at h
  obtain ⟨a, s₁, h₁, h₂⟩ := h.of_bind
  obtain ⟨rfl, rfl⟩ := h₂.of_pure
  exact ⟨a, h₁, rfl⟩

theorem of_discard {u : PUnit} [Grows r] (h : Clean (discard r) s u s') : ∃ a, Clean r s a s' := by
  obtain ⟨a, ha, _⟩ := (show Clean ((fun _ => PUnit.unit) <$> r) s u s' from h).of_map
  exact ⟨a, ha⟩

theorem of_get {c : Cursor} (h : Clean get s c s') : c = s ∧ s' = s := by
  have hr : (Except.ok s, s) = ((.ok c, s') : Except Diagnostic Cursor × Cursor) := h.result
  simp only [Prod.mk.injEq, Except.ok.injEq] at hr
  exact ⟨hr.1.symm, hr.2.symm⟩

theorem not_fail {cause : SyntacticCause} : ¬ Clean (fail cause : Rule α) s a s' := by
  intro h
  have hr : (Except.error _, s) = ((.ok a, s') : Except Diagnostic α × Cursor) := h.result
  simp at hr

theorem not_report {d : Diagnostic} {u : Unit} :
    ¬ Clean (modify (·.report d) : Rule Unit) s u s' := by
  intro h
  have hr : (Except.ok (), s.report d) = ((.ok u, s') : Except Diagnostic Unit × Cursor) := h.result
  have hp := h.reports
  simp only [Prod.mk.injEq] at hr
  rw [← hr.2] at hp
  simp [Cursor.report] at hp

theorem not_complain {cause : SyntacticCause} {u : Unit} : ¬ Clean (complain cause) s u s' := by
  intro h
  exact not_report ⟨h.result, h.reports, h.ended⟩

theorem of_freshId {n : NodeId} (h : Clean freshId s n s') :
    n = s.nextId ∧ s'.rest = s.rest ∧ s'.nextId = s.nextId + 1 := by
  have hr : (Except.ok s.nextId, { s with nextId := s.nextId + 1 }) =
    ((.ok n, s') : Except Diagnostic NodeId × Cursor) := h.result
  simp only [Prod.mk.injEq, Except.ok.injEq] at hr
  obtain ⟨rfl, rfl⟩ := hr
  exact ⟨rfl, rfl, rfl⟩

theorem of_accept? {o : Option Token} (h : Clean (accept? p) s o s') :
    (∃ t, o = some t ∧ p t = true ∧ s.rest = t :: s'.rest ∧ s'.nextId = s.nextId) ∨
      (o = none ∧ s' = s) := by
  have hr := h.result
  rw [accept?_apply] at hr
  split at hr
  · next t ts hts =>
    split at hr
    · next hp =>
      cases hr
      exact Or.inl ⟨t, rfl, hp, hts, rfl⟩
    · cases hr
      exact Or.inr ⟨rfl, rfl⟩
  · cases hr
    exact Or.inr ⟨rfl, rfl⟩

theorem of_accepts {yes : Bool} (h : Clean (accepts p) s yes s') :
    (yes = true ∧ ∃ t, p t = true ∧ s.rest = t :: s'.rest ∧ s'.nextId = s.nextId) ∨
      (yes = false ∧ s' = s) := by
  unfold accepts at h
  obtain ⟨o, s₁, h₁, h₂⟩ := h.of_bind
  obtain ⟨rfl, rfl⟩ := h₂.of_pure
  rcases h₁.of_accept? with ⟨t, rfl, ht⟩ | ⟨rfl, hs⟩
  · exact Or.inl ⟨rfl, t, ht⟩
  · exact Or.inr ⟨rfl, hs⟩

/-- What is not accepted does not come next. -/
theorem head_of_accepts (h : Clean (accepts p) s false s') : ∀ t ∈ s.rest.head?, p t = false := by
  unfold accepts at h
  obtain ⟨o, s₁, h₁, h₂⟩ := h.of_bind
  have ho := h₂.of_pure.1
  have hr := h₁.result
  rw [accept?_apply] at hr
  intro t ht
  cases hs : s.rest with
  | nil => simp [hs] at ht
  | cons t' ts =>
    rw [hs] at ht hr
    simp only [List.head?_cons, Option.mem_def, Option.some.injEq] at ht
    subst ht
    cases hp : p t' with
    | false => rfl
    | true =>
      simp only [hp, ↓reduceIte] at hr
      cases hr
      simp at ho

theorem of_sees {yes : Bool} (h : Clean (sees p) s yes s') : s' = s := by
  have hr : (Except.ok (s.rest.head?.any p), s) =
    ((.ok yes, s') : Except Diagnostic Bool × Cursor) := h.result
  cases hr
  rfl

theorem of_skip {u : Unit} (h : Clean skip s u s') :
    s'.rest = s.rest.tail ∧ s'.nextId = s.nextId := by
  have hr : (Except.ok (), { s with rest := s.rest.tail }) =
    ((.ok u, s') : Except Diagnostic Unit × Cursor) := h.result
  cases hr
  exact ⟨rfl, rfl⟩

theorem of_acceptWhile {ts : List Token} (h : Clean (acceptWhile p) s ts s') :
    (∀ t ∈ ts, p t = true) ∧ s.rest = ts ++ s'.rest ∧ s'.nextId = s.nextId := by
  have hr : (Except.ok (s.rest.takeWhile p), { s with rest := s.rest.dropWhile p }) =
    ((.ok ts, s') : Except Diagnostic (List Token) × Cursor) := h.result
  cases hr
  refine ⟨fun t ht => ?_, List.takeWhile_append_dropWhile.symm, rfl⟩
  exact List.all_eq_true.mp List.all_takeWhile t ht

theorem of_expect {what : Expectation} {t : Token} (h : Clean (expect p what) s t s') :
    p t = true ∧ s.rest = t :: s'.rest ∧ s'.nextId = s.nextId := by
  unfold expect at h
  obtain ⟨o, s₁, h₁, h₂⟩ := h.of_bind_of_grows fun o => by cases o <;> infer_instance
  rcases h₁.of_accept? with ⟨t', rfl, ht⟩ | ⟨rfl, -⟩
  · obtain ⟨rfl, rfl⟩ := h₂.of_pure
    exact ht
  · exact absurd h₂ not_fail

end Clean

end TreeWalk.Rule
