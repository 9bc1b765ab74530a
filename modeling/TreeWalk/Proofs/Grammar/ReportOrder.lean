import Mathlib
import TreeWalk.Proofs.Grammar.FaultOrder
import TreeWalk.Proofs.Grammar.Relabeling
import TreeWalk.Proofs.Grammar.Resumption
import TreeWalk.Proofs.Source.Seam

/-! Where the reports of parsing are in the text. Rules report at tokens between the first and the
last one they look at, each report no farther back than the one before. Only a target that nothing
can be assigned to is reported late: at its equals sign, but after all that follows. -/

namespace TreeWalk

variable {all : List Token}

/-- A token of a text, and what is wrong there. -/
structure Mark (all : List Token) where
  place : Fin all.length
  cause : SyntacticCause

namespace Mark

def token (m : Mark all) : Token :=
  all[m.place]

def report (m : Mark all) : Diagnostic :=
  .syntactic m.token m.cause

/-- The report when the tokens of the text are on other lines. -/
def reportOn (lines : Fin all.length → Nat) (m : Mark all) : Diagnostic :=
  .syntactic (m.token.onLine (lines m.place)) m.cause

/-- That `b` may be reported after `a`. -/
def Precedes (a b : Mark all) : Prop :=
  a.place ≤ b.place ∨ b.cause = .invalidAssignmentTarget

/-- Marks in the order of their reports, from one place of the text to another. -/
structure Between (i j : Fin all.length) (marks : List (Mark all)) : Prop where
  low : ∀ m ∈ marks, i ≤ m.place
  high : ∀ m ∈ marks, m.place ≤ j
  ordered : marks.Pairwise Precedes

namespace Between

variable {i j k : Fin all.length} {marks marks' : List (Mark all)}

theorem nil : Between i j [] :=
  ⟨fun _ h => absurd h List.not_mem_nil, fun _ h => absurd h List.not_mem_nil, .nil⟩

theorem singleton {m : Mark all} (hlow : i ≤ m.place) (hhigh : m.place ≤ j) : Between i j [m] := by
  refine ⟨fun m' h => ?_, fun m' h => ?_, List.pairwise_singleton _ _⟩
  · rwa [List.mem_singleton.mp h]
  · rwa [List.mem_singleton.mp h]

theorem widen {i' j' : Fin all.length} (h : Between i j marks) (hi : i' ≤ i) (hj : j ≤ j') :
    Between i' j' marks :=
  ⟨fun m hm => hi.trans (h.low m hm), fun m hm => (h.high m hm).trans hj, h.ordered⟩

theorem append (h : Between i j marks) (h' : Between j k marks') (hij : i ≤ j) (hjk : j ≤ k) :
    Between i k (marks ++ marks') := by
  refine ⟨fun m hm => ?_, fun m hm => ?_, ?_⟩
  · rcases List.mem_append.mp hm with hm | hm
    · exact h.low m hm
    · exact hij.trans (h'.low m hm)
  · rcases List.mem_append.mp hm with hm | hm
    · exact (h.high m hm).trans hjk
    · exact h'.high m hm
  · refine List.pairwise_append.mpr ⟨h.ordered, h'.ordered, fun a ha b hb => ?_⟩
    exact Or.inl ((h.high a ha).trans (h'.low b hb))

/-- A late report, wherever it is between the two places. -/
theorem late (h : Between i j marks) {m : Mark all} (hlow : i ≤ m.place) (hhigh : m.place ≤ j)
    (hcause : m.cause = .invalidAssignmentTarget) : Between i j (marks ++ [m]) := by
  refine ⟨fun m' hm => ?_, fun m' hm => ?_, ?_⟩
  · rcases List.mem_append.mp hm with hm | hm
    · exact h.low m' hm
    · rwa [List.mem_singleton.mp hm]
  · rcases List.mem_append.mp hm with hm | hm
    · exact h.high m' hm
    · rwa [List.mem_singleton.mp hm]
  · refine List.pairwise_append.mpr ⟨h.ordered, List.pairwise_singleton _ _, fun a _ b hb => ?_⟩
    rw [List.mem_singleton.mp hb]
    exact Or.inr hcause

end Between

end Mark

/-- The tokens from a place of the text on are still to be parsed, up to the end mark. -/
def Cursor.At (i : Fin all.length) (s : Cursor) : Prop :=
  s.rest ++ [s.stop] <+: all.drop i

namespace Cursor.At

variable {i : Fin all.length} {s : Cursor}

theorem head (h : s.At i) : s.head = all.get i := by
  obtain ⟨after, hafter⟩ := h
  have hfirst : (s.rest ++ [s.stop] ++ after).head? = some (all.get i) := by
    rw [hafter, List.head?_drop]
    exact List.getElem?_eq_getElem i.isLt
  have hhead : (s.rest ++ [s.stop] ++ after).head? = some s.head := by
    cases hrest : s.rest with
    | nil => rw [Cursor.head, hrest]; rfl
    | cons t ts => rw [Cursor.head, hrest]; rfl
  exact Option.some.inj (hhead.symm.trans hfirst)

/-- The place of what is left after taking some tokens. -/
theorem suffix (h : s.At i) {rest : List Token} (hrest : rest <:+ s.rest) :
    ∃ j, i ≤ j ∧ rest ++ [s.stop] <+: all.drop j := by
  obtain ⟨taken, htaken⟩ := hrest
  obtain ⟨after, hafter⟩ := h
  have hdrop : all.drop (i + taken.length) = rest ++ [s.stop] ++ after := by
    rw [← List.drop_drop, ← hafter, ← htaken, List.append_assoc, List.append_assoc,
      List.drop_left, List.append_assoc]
  have hinside : i + taken.length < all.length := by
    apply List.length_lt_of_drop_ne_nil
    rw [hdrop]
    exact List.append_ne_nil_of_left_ne_nil
      (List.append_ne_nil_of_right_ne_nil rest (List.cons_ne_nil _ _)) after
  exact ⟨⟨i + taken.length, hinside⟩, Nat.le_add_right _ _, after, hdrop.symm⟩

end Cursor.At

namespace Rule

variable {α β : Type}

/-- From one place of the text to another, with reports between the two. -/
structure Walk (i j : Fin all.length) (s s' : Cursor) (marks : List (Mark all)) : Prop where
  le : i ≤ j
  there : s'.At j
  reports : s'.reports = s.reports ++ marks.map Mark.report
  between : Mark.Between i j marks

/-- What comes of a rule: it has walked on, and if it gives up, it reports the token it has come
to. -/
def Walks (i : Fin all.length) (s : Cursor) (out : Except Diagnostic α × Cursor) : Prop :=
  ∃ j marks, Walk i j s out.2 marks ∧ ∀ d, out.1 = .error d → ∃ cause, d = Mark.report ⟨j, cause⟩

/-- A rule reports in the order of the text, late reports apart. -/
class Orderly (r : Rule α) : Prop where
  walks : ∀ {all : List Token} {i : Fin all.length} {s : Cursor}, s.At i → Walks i s (r s)

section Walks

variable {i j k : Fin all.length} {s s' s₁ : Cursor} {marks marks' : List (Mark all)}

theorem Walk.refl (h : s.At i) : Walk i i s s [] :=
  ⟨le_rfl, h, (List.append_nil _).symm, .nil⟩

theorem Walk.trans (h : Walk i j s s₁ marks) (h' : Walk j k s₁ s' marks') :
    Walk i k s s' (marks ++ marks') := by
  refine ⟨h.le.trans h'.le, h'.there, ?_, h.between.append h'.between h.le h'.le⟩
  rw [h'.reports, h.reports, List.map_append, List.append_assoc]

theorem Walk.then {out : Except Diagnostic α × Cursor} (h : Walk i j s s₁ marks)
    (h' : Walks j s₁ out) : Walks i s out := by
  obtain ⟨k, marks', hwalk, hfails⟩ := h'
  exact ⟨k, marks ++ marks', h.trans hwalk, hfails⟩

/-- Taking some tokens. -/
theorem Walk.of_suffix (h : s.At i) (hrest : s'.rest <:+ s.rest) (hstop : s'.stop = s.stop)
    (hreports : s'.reports = s.reports) : ∃ j, Walk i j s s' [] := by
  obtain ⟨j, hle, hdrop⟩ := h.suffix hrest
  rw [← hstop] at hdrop
  refine ⟨j, hle, hdrop, ?_, .nil⟩
  rw [hreports, List.map_nil, List.append_nil]

theorem Walks.ok {a : α} (h : Walk i j s s' marks) : Walks i s (Except.ok a, s') :=
  ⟨j, marks, h, fun _ hd => nomatch hd⟩

/-- Where a rule succeeds, the walk goes on from there. -/
theorem Walks.bind {r : Rule α} {f : α → Rule β} (h : Walks i s (r s))
    (hf : ∀ {j : Fin all.length} {a s₁}, r s = (.ok a, s₁) → s₁.At j → Walks j s₁ (f a s₁)) :
    Walks i s ((r >>= f) s) := by
  obtain ⟨j, marks, hwalk, hfails⟩ := h
  rw [bind_apply]
  cases hrun : r s with
  | mk result s₁ =>
    rw [hrun] at hwalk hfails
    cases result with
    | ok a => exact hwalk.then (hf hrun hwalk.there)
    | error d =>
      obtain ⟨cause, rfl⟩ := hfails d rfl
      refine ⟨j, marks, hwalk, fun d' hd' => ⟨cause, ?_⟩⟩
      exact (Except.error.inj hd').symm

end Walks

namespace Orderly

variable {r : Rule α} {f : α → Rule β}

/-- A rule that chooses another rule by the cursor is orderly if all its choices are. -/
theorem of_apply (h : ∀ s, ∃ r' : Rule α, r s = r' s ∧ Orderly r') : Orderly r where
  walks hs := by
    obtain ⟨r', hr, hr'⟩ := h _
    rw [hr]
    exact hr'.walks hs

/-- A rule that reports nothing and always succeeds. -/
theorem of_quiet (h : ∀ s, (∃ a, (r s).1 = .ok a) ∧ (r s).2.rest <:+ s.rest ∧
    (r s).2.stop = s.stop ∧ (r s).2.reports = s.reports) : Orderly r where
  walks {all i s} hs := by
    obtain ⟨⟨a, ha⟩, hrest, hstop, hreports⟩ := h s
    obtain ⟨j, hwalk⟩ := Walk.of_suffix hs hrest hstop hreports
    refine ⟨j, [], hwalk, fun d hd => ?_⟩
    rw [ha] at hd
    cases hd

instance (a : α) : Orderly (pure a : Rule α) :=
  of_quiet fun _ => ⟨⟨a, rfl⟩, List.suffix_rfl, rfl, rfl⟩

theorem bind (hr : Orderly r) (hf : ∀ a, Orderly (f a)) : Orderly (r >>= f) where
  walks hs := (hr.walks hs).bind fun _ hs₁ => (hf _).walks hs₁

instance (r : Rule α) (f : α → Rule β) [hr : Orderly r] [hf : ∀ a, Orderly (f a)] :
    Orderly (r >>= f) :=
  hr.bind hf

instance (g : α → β) (r : Rule α) [Orderly r] : Orderly (g <$> r) := by
  rw [map_eq_pure_bind]
  infer_instance

instance (r : Rule α) [Orderly r] : Orderly (discard r) :=
  inferInstanceAs (Orderly ((fun _ => PUnit.unit) <$> r))

theorem ite {c : Prop} [Decidable c] {r r' : Rule α} (hr : Orderly r) (hr' : Orderly r') :
    Orderly (if c then r else r') := by
  split
  · exact hr
  · exact hr'

instance (c : Prop) [Decidable c] (r r' : Rule α) [hr : Orderly r] [hr' : Orderly r'] :
    Orderly (if c then r else r') :=
  hr.ite hr'

end Orderly

section Elementary

variable (p : Token → Bool)

instance : Orderly (get : Rule Cursor) :=
  .of_quiet fun s => ⟨⟨s, rfl⟩, List.suffix_rfl, rfl, rfl⟩

instance : Orderly skip :=
  .of_quiet fun s => ⟨⟨(), rfl⟩, List.tail_suffix s.rest, rfl, rfl⟩

instance : Orderly (sees p) :=
  .of_quiet fun s => ⟨⟨s.rest.head?.any p, rfl⟩, List.suffix_rfl, rfl, rfl⟩

instance : Orderly freshId :=
  .of_quiet fun s => ⟨⟨s.nextId, rfl⟩, List.suffix_rfl, rfl, rfl⟩

instance : Orderly (acceptWhile p) :=
  .of_quiet fun s => ⟨⟨s.rest.takeWhile p, rfl⟩, List.dropWhile_suffix p, rfl, rfl⟩

instance : Orderly (accept? p) := by
  refine .of_quiet fun s => ?_
  rw [accept?_apply]
  split
  · next t ts hrest =>
    split
    · exact ⟨⟨some t, rfl⟩, hrest ▸ List.suffix_cons t ts, rfl, rfl⟩
    · exact ⟨⟨none, rfl⟩, List.suffix_rfl, rfl, rfl⟩
  · exact ⟨⟨none, rfl⟩, List.suffix_rfl, rfl, rfl⟩

instance : Orderly (accepts p) := by
  unfold accepts
  infer_instance

instance (cause : SyntacticCause) : Orderly (fail cause : Rule α) where
  walks {all i s} hs := by
    refine ⟨i, [], .refl hs, fun d hd => ⟨cause, ?_⟩⟩
    have hhead : d = .syntactic s.head cause := (Except.error.inj hd).symm
    rw [hhead, hs.head]
    rfl

instance (what : Expectation) : Orderly (expect p what) := by
  unfold expect
  refine Orderly.bind inferInstance fun result => ?_
  cases result <;> infer_instance

instance (cause : SyntacticCause) : Orderly (complain cause) where
  walks {all i s} hs := by
    have hwalk : Walk i i s (s.report (.syntactic s.head cause)) [⟨i, cause⟩] := by
      refine ⟨le_rfl, hs, ?_, .singleton le_rfl le_rfl⟩
      rw [hs.head]
      rfl
    exact .ok hwalk

end Elementary

section Expressions

instance leftAssocFrom_orderly (build : Expr → Token → Expr → Expr) (isOperator : Token → Bool)
    (operand : Rule Expr) [Orderly operand] (bound : Nat) (left : Expr) :
    Orderly (leftAssocFrom build isOperator operand bound left) := by
  induction bound generalizing left with
  | zero =>
    rw [leftAssocFrom]
    infer_instance
  | succ bound ih =>
    rw [leftAssocFrom]
    refine Orderly.bind inferInstance fun o => ?_
    cases o <;> infer_instance

instance (build : Expr → Token → Expr → Expr) (isOperator : Token → Bool)
    (operand : Rule Expr) [Orderly operand] : Orderly (leftAssoc build isOperator operand) := by
  unfold leftAssoc
  infer_instance

/-- An item past the limit is complained about before it is parsed. -/
instance moreItems_orderly (tooMany : SyntacticCause) (item : Rule α) [Orderly item] (bound : Nat)
    (items : List α) : Orderly (moreItems tooMany item bound items) := by
  induction bound generalizing items with
  | zero =>
    rw [moreItems]
    infer_instance
  | succ bound ih =>
    rw [moreItems]
    infer_instance

instance (tooMany : SyntacticCause) (item : Rule α) [Orderly item] :
    Orderly (commaSeparated tooMany item) := by
  unfold commaSeparated
  infer_instance

variable {expression : Rule Expr}

instance [Orderly expression] : Orderly (primary expression) := by
  unfold primary
  refine Orderly.bind inferInstance fun s => ?_
  dsimp only
  split <;> infer_instance

instance [Orderly expression] : Orderly (arguments expression) := by
  unfold arguments
  infer_instance

instance callsFrom_orderly [Orderly expression] (bound : Nat) (callee : Expr) :
    Orderly (callsFrom expression bound callee) := by
  induction bound generalizing callee with
  | zero =>
    rw [callsFrom]
    infer_instance
  | succ bound ih =>
    rw [callsFrom]
    infer_instance

instance [Orderly expression] : Orderly (call expression) := by
  unfold call
  infer_instance

instance [Orderly expression] : Orderly (unary expression) := by
  unfold unary
  infer_instance

instance [Orderly expression] : Orderly (disjunction expression) := by
  unfold disjunction conjunction equality comparison term factor
  infer_instance

/-- The value is parsed, and only then the equals sign before it is reported. -/
theorem assignTo_walks [he : Orderly expression] {e i : Fin all.length} {s : Cursor}
    (hs : s.At i) (hle : e ≤ i) (target : Expr) :
    Walks e s (assignTo expression target all[e] s) := by
  have hthere : Walk e i s s [] := ⟨hle, hs, (List.append_nil _).symm, .nil⟩
  have hvariable (id : NodeId) (name : Token) :
      Walks e s (assignTo expression (.var id name) all[e] s) := by
    unfold assignTo
    have horderly : Orderly (expression >>= fun value => freshId >>= fun id' =>
        pure (Expr.assign id' name value)) := inferInstance
    exact hthere.then (horderly.walks hs)
  have hother (hshape : ∀ id name, target ≠ .var id name) :
      Walks e s (assignTo expression target all[e] s) := by
    rw [assignTo_of_not_var expression hshape]
    obtain ⟨j, marks, hwalk, hfails⟩ := he.walks hs
    rw [bind_apply]
    cases hrun : expression s with
    | mk result s₁ =>
      rw [hrun] at hwalk hfails
      have hfar : e ≤ j := hle.trans hwalk.le
      cases result with
      | error d =>
        obtain ⟨cause, rfl⟩ := hfails d rfl
        refine ⟨j, [] ++ marks, hthere.trans hwalk, fun d' hd' => ⟨cause, ?_⟩⟩
        exact (Except.error.inj hd').symm
      | ok value =>
        let late : Mark all := ⟨e, .invalidAssignmentTarget⟩
        have hlate : Mark.Between e j (marks ++ [late]) :=
          (hwalk.between.widen hle le_rfl).late le_rfl hfar rfl
        have hreported : Walk e j s (s₁.report late.report) (marks ++ [late]) := by
          refine ⟨hfar, hwalk.there, ?_, hlate⟩
          rw [Cursor.report, hwalk.reports, List.map_append, List.append_assoc]
          rfl
        exact .ok hreported
  cases htarget : target with
  | var id name => exact hvariable id name
  | _ => exact htarget ▸ hother fun id name => by simp [htarget]

instance [Orderly expression] : Orderly (assignment expression) where
  walks {all i s} hs := by
    unfold assignment
    have htarget : Orderly (disjunction expression) := inferInstance
    refine (htarget.walks hs).bind fun {e target s₁} _ hs₁ => ?_
    cases hrest : s₁.rest with
    | nil =>
      have hnone : accept? (·.isPunctuator .equal) s₁ = (.ok none, s₁) := by
        rw [accept?_apply, hrest]
      rw [bind_apply, hnone]
      exact .ok (.refl hs₁)
    | cons t ts =>
      cases hequal : t.isPunctuator .equal with
      | false =>
        have hnone : accept? (·.isPunctuator .equal) s₁ = (.ok none, s₁) := by
          rw [accept?_apply, hrest]
          exact if_neg (by simp [hequal])
        rw [bind_apply, hnone]
        exact .ok (.refl hs₁)
      | true =>
        have hsome : accept? (·.isPunctuator .equal) s₁ =
            (.ok (some t), { s₁ with rest := ts }) := by
          rw [accept?_apply, hrest]
          exact if_pos hequal
        have hequals : t = all.get e := by
          rw [← hs₁.head, Cursor.head, hrest]
          rfl
        obtain ⟨i₂, hle, hdrop⟩ := hs₁.suffix (hrest ▸ List.suffix_cons t ts)
        have hs₂ : Cursor.At i₂ { s₁ with rest := ts } := hdrop
        rw [bind_apply, hsome, hequals]
        have hassigns : Walks e { s₁ with rest := ts }
            (assignTo expression target all[e] { s₁ with rest := ts }) :=
          assignTo_walks hs₂ hle target
        obtain ⟨j, marks, hwalk, hfails⟩ := hassigns
        exact ⟨j, marks, ⟨hwalk.le, hwalk.there, hwalk.reports, hwalk.between⟩, hfails⟩

instance expressionUpTo_orderly (depth : Nat) : Orderly (expressionUpTo depth) := by
  induction depth with
  | zero => exact inferInstanceAs (Orderly (fail (.expected .expression)))
  | succ depth ih => exact inferInstanceAs (Orderly (assignment (expressionUpTo depth)))

instance : Orderly Rule.expression :=
  Orderly.of_apply fun s => ⟨expressionUpTo (s.rest.length + 1), rfl, inferInstance⟩

end Expressions

section Statements

variable {statement : Rule Stmt} {block : Rule (List Stmt)}

instance (closing : Punctuator) : Orderly (optionalExpression closing) := by
  unfold optionalExpression
  infer_instance

instance : Orderly expressionStatement := by
  unfold expressionStatement
  infer_instance

instance : Orderly variableDeclaration := by
  unfold variableDeclaration
  infer_instance

instance : Orderly forInitializer := by
  unfold forInitializer
  infer_instance

instance : Orderly parameters := by
  unfold parameters
  infer_instance

instance [Orderly statement] : Orderly (forStatement statement) := by
  unfold forStatement
  infer_instance

instance [Orderly block] : Orderly (functionDeclaration block) := by
  unfold functionDeclaration
  infer_instance

instance [Orderly statement] [Orderly block] : Orderly (statementWith statement block) := by
  unfold statementWith ifStatement printStatement returnStatement whileStatement
  refine Orderly.bind inferInstance fun isFor => ?_
  refine Orderly.ite inferInstance (Orderly.bind inferInstance fun isIf => ?_)
  refine Orderly.ite inferInstance (Orderly.bind inferInstance fun isPrint => ?_)
  refine Orderly.ite inferInstance (Orderly.bind inferInstance fun keyword => ?_)
  cases keyword <;> infer_instance

instance [Orderly statement] [Orderly block] : Orderly (declarationWith statement block) := by
  unfold declarationWith
  infer_instance

end Statements

section Declarations

variable {declaration : StateM Cursor (Option Stmt)} {closes : Token → Bool}

/-- What is given up on is reported where the rule stopped, and recovery only goes on from
there. -/
instance (rule : Rule Stmt) [hr : Orderly rule] : Orderly (liftM (recovering rule) : Rule _) where
  walks {all i s} hs := by
    obtain ⟨j, marks, hwalk, hfails⟩ := hr.walks hs
    rw [liftM_apply]
    obtain ⟨stmt, s₁, hrun, hrecovering⟩ | ⟨d, s₁, hrun, hrecovering⟩ := recovering_cases rule s
    · rw [hrun] at hwalk
      rw [hrecovering]
      exact .ok hwalk
    · rw [hrun] at hwalk hfails
      rw [hrecovering]
      obtain ⟨cause, rfl⟩ := hfails d rfl
      let last : Mark all := ⟨j, cause⟩
      have hlast : Walk j j s₁ (s₁.report last.report) [last] :=
        ⟨le_rfl, hwalk.there, rfl, .singleton le_rfl le_rfl⟩
      have hrest : Cursor.resumption s₁.rest <:+ s₁.rest := by
        cases s₁.rest with
        | nil => exact List.suffix_rfl
        | cons t ts => exact (Cursor.resumption_suffix t ts).trans (List.suffix_cons t ts)
      have hresumes : ∃ k, Walk j k (s₁.report last.report)
          { s₁.report last.report with rest := Cursor.resumption s₁.rest } [] :=
        Walk.of_suffix hwalk.there hrest rfl rfl
      obtain ⟨k, hresumes⟩ := hresumes
      exact .ok ((hwalk.trans hlast).trans hresumes)

instance declarationsUntil_orderly [hd : Orderly (liftM declaration : Rule _)] (bound : Nat) :
    Orderly (liftM (declarationsUntil closes declaration bound) : Rule _) := by
  induction bound with
  | zero => exact inferInstanceAs (Orderly (pure [] : Rule (List Stmt)))
  | succ bound ih =>
    have hround : Orderly (do
        let first ← (liftM declaration : Rule (Option Stmt))
        let others ← (liftM (declarationsUntil closes declaration bound) : Rule (List Stmt))
        return first.toList ++ others) := inferInstance
    have hstop : Orderly (pure [] : Rule (List Stmt)) := inferInstance
    refine .of_apply fun s => ?_
    rw [liftM_apply, declarationsUntil_succ_apply]
    split
    · exact ⟨_, rfl, hstop⟩
    · exact ⟨_, rfl, hround⟩

instance [Orderly (liftM declaration : Rule _)] : Orderly (blockOf declaration) := by
  unfold blockOf
  infer_instance

/-- By induction on the depth of nesting. -/
theorem nested_orderly (depth : Nat) :
    Orderly (statementUpTo depth) ∧ Orderly (liftM (declarationUpTo depth) : Rule _) := by
  induction depth with
  | zero =>
    exact ⟨inferInstanceAs (Orderly (fail (.expected .expression))),
      inferInstanceAs (Orderly (liftM (recovering (fail (.expected .expression))) : Rule _))⟩
  | succ depth ih =>
    obtain ⟨hstatement, hdeclaration⟩ := ih
    exact ⟨inferInstanceAs (Orderly (statementWith (statementUpTo depth)
        (blockOf (declarationUpTo depth)))),
      inferInstanceAs (Orderly (liftM (recovering (declarationWith (statementUpTo depth)
        (blockOf (declarationUpTo depth)))) : Rule _))⟩

instance : Orderly (liftM Rule.declaration : Rule _) :=
  Orderly.of_apply fun s => ⟨_, declaration_apply s, (nested_orderly _).2⟩

instance program_orderly : Orderly (liftM program : Rule _) :=
  Orderly.of_apply fun s =>
    ⟨liftM (declarationsUntil (fun _ => false) Rule.declaration s.rest.length), rfl, inferInstance⟩

end Declarations

end Rule

section Programs

variable {tokens : List Token}

/-- Tokens are parsed from the first one up to the first end mark. -/
theorem Cursor.ofTokens_at (hend : ∃ t ∈ tokens, t.isEnd = true) (n : NodeId) :
    ∃ i : Fin tokens.length, (ofTokens tokens n).At i := by
  obtain ⟨t, ht, htend⟩ := hend
  have hfound : tokens.find? Token.isEnd = some (stopOf tokens) := by
    obtain ⟨stop, hstop⟩ := Option.isSome_iff_exists.mp (List.find?_isSome.mpr ⟨t, ht, htend⟩)
    rw [stopOf, hstop]
    rfl
  rw [List.find?_eq_head?_dropWhile_not] at hfound
  obtain ⟨after, hafter⟩ := List.head?_eq_some_iff.mp hfound
  refine ⟨⟨0, List.length_pos_of_mem ht⟩, after, ?_⟩
  calc tokens.takeWhile (!·.isEnd) ++ [stopOf tokens] ++ after
    _ = tokens.takeWhile (!·.isEnd) ++ tokens.dropWhile (!·.isEnd) := by
      rw [hafter, List.append_assoc, List.singleton_append]
    _ = tokens := List.takeWhile_append_dropWhile

theorem exists_report_marks (hend : ∃ t ∈ tokens, t.isEnd = true) (n : NodeId) :
    ∃ marks : List (Mark tokens), marks.Pairwise Mark.Precedes ∧
      (parseProgram tokens n).errors = marks.map Mark.report := by
  obtain ⟨i, hi⟩ := Cursor.ofTokens_at hend n
  obtain ⟨j, marks, hwalk, -⟩ := Rule.program_orderly.walks hi
  exact ⟨marks, hwalk.between.ordered, hwalk.reports⟩

/-- The lines of tokens that are numbered by their places. -/
def Relabeling.ofLines (lines : Fin tokens.length → Nat) : Relabeling where
  node := id
  node_succ _ := rfl
  line n := if h : n < tokens.length then lines ⟨n, h⟩ else 0
  prior := []

theorem Relabeling.ofLines_token (lines : Fin tokens.length → Nat) (i : Fin tokens.length) :
    (ofLines lines).token ((tokens.get i).onLine i) = (tokens.get i).onLine (lines i) := by
  rw [token, ofLines]
  exact congrArg (tokens.get i).onLine (dif_pos i.isLt)

/-- Each token on the line of its number. -/
def Token.numbered (tokens : List Token) : List Token :=
  relined tokens fun i => i

theorem Token.length_numbered : (numbered tokens).length = tokens.length :=
  List.length_ofFn

/-- The mark of a token without the number. -/
def Mark.unnumbered (m : Mark (Token.numbered tokens)) : Mark tokens :=
  ⟨m.place.cast Token.length_numbered, m.cause⟩

/-- Whatever the lines of its tokens, a text is reported on at the same places. -/
theorem exists_report_places (hend : ∃ t ∈ tokens, t.isEnd = true) (n : NodeId) :
    ∃ marks : List (Mark tokens), marks.Pairwise Mark.Precedes ∧
      ∀ lines, (parseProgram (Token.relined tokens lines) n).errors =
        marks.map (Mark.reportOn lines) := by
  have hends : ∃ t ∈ Token.numbered tokens, t.isEnd = true := by
    obtain ⟨t, ht, htend⟩ := hend
    obtain ⟨i, hi, rfl⟩ := List.getElem_of_mem ht
    exact ⟨_, List.mem_ofFn.mpr ⟨⟨i, hi⟩, rfl⟩, htend⟩
  -- The reports on numbered tokens name their places, and all lines go by the numbers.
  obtain ⟨marks, hmarks, herrors⟩ := exists_report_marks hends n
  refine ⟨marks.map Mark.unnumbered, List.pairwise_map.mpr hmarks, fun lines => ?_⟩
  let σ := Relabeling.ofLines lines
  have hrelined : (Token.numbered tokens).map σ.token = Token.relined tokens lines := by
    rw [Token.numbered, Token.relined, List.map_ofFn]
    exact congrArg List.ofFn (funext (Relabeling.ofLines_token lines))
  have hreport (m : Mark (Token.numbered tokens)) :
      σ.diagnostic m.report = m.unnumbered.reportOn lines := by
    have htoken : m.token = m.unnumbered.token.onLine m.unnumbered.place := List.getElem_ofFn _
    rw [Mark.report, htoken, Relabeling.diagnostic]
    exact congrArg (Diagnostic.syntactic · m.cause) (Relabeling.ofLines_token lines _)
  calc (parseProgram (Token.relined tokens lines) n).errors
    _ = (parseProgram (Token.numbered tokens) n).errors.map σ.diagnostic := by
      rw [← hrelined]
      exact congrArg Parsed.errors (parseProgram_relabel rfl hends)
    _ = (marks.map Mark.report).map σ.diagnostic := by rw [herrors]
    _ = (marks.map Mark.unnumbered).map (Mark.reportOn lines) := by
      rw [List.map_map, List.map_map]
      exact List.map_congr_left fun m _ => hreport m

/-- The reports on a scanned text are in the order of its tokens, except that a target that nothing
can be assigned to may be reported later than what comes after it. That these are the places in the
text shows when the tokens are put on other lines: each report moves with its own token. So the
reports go down the lines of the text, late ones apart. -/
theorem source_reports_in_order (source : String) (n : NodeId) :
    ∃ marks : List (Mark (Source.tokens source)), marks.Pairwise Mark.Precedes ∧
      (parseProgram (Source.tokens source) n).errors = marks.map Mark.report ∧
      (∀ lines, (parseProgram (Token.relined (Source.tokens source) lines) n).errors =
        marks.map (Mark.reportOn lines)) ∧
      (parseProgram (Source.tokens source) n).errors.Pairwise fun d d' =>
        (∃ t, d' = .syntactic t .invalidAssignmentTarget) ∨
          ∃ line line', d.line? = some line ∧ d'.line? = some line' ∧ line ≤ line' := by
  have hend : ∃ t ∈ Source.tokens source, t.isEnd = true := by
    obtain ⟨line, htokens, -⟩ := Source.tokens_eq source
    rw [htokens]
    exact ⟨Token.endMark line, List.mem_append_right _ List.mem_cons_self, rfl⟩
  obtain ⟨marks, hmarks, hlines⟩ := exists_report_places hend n
  have hself : (parseProgram (Source.tokens source) n).errors = marks.map Mark.report := by
    have hown := hlines fun i => (Source.tokens source)[i].line
    rwa [Token.relined_self] at hown
  refine ⟨marks, hmarks, hself, hlines, ?_⟩
  rw [hself]
  refine List.pairwise_map.mpr (hmarks.imp fun {a b} hprecedes => ?_)
  rcases hprecedes with hle | hlate
  · exact Or.inr ⟨_, _, rfl, rfl, Source.line_le hle⟩
  · exact Or.inl ⟨_, congrArg (Diagnostic.syntactic _) hlate⟩

/-- Two assignments to `nil`, the second one inside the first one. -/
def nestedTargets : String :=
  "nil\n=\nnil\n=\nnil;"

/-- The inner target is reported first, though it comes after the outer one in the text. -/
theorem inner_target_first :
    (parseProgram (Source.tokens nestedTargets) 0).errors.map Diagnostic.line? =
        [some 4, some 2] ∧
      ¬∃ marks : List (Mark (Source.tokens nestedTargets)),
        (marks.Pairwise fun a b => a.place ≤ b.place) ∧
          (parseProgram (Source.tokens nestedTargets) 0).errors = marks.map Mark.report := by
  have htokens : Source.tokens nestedTargets =
      [⟨.keyword .nil_, "nil", 1⟩, ⟨.punctuator .equal, "=", 2⟩, ⟨.keyword .nil_, "nil", 3⟩,
        ⟨.punctuator .equal, "=", 4⟩, ⟨.keyword .nil_, "nil", 5⟩,
        ⟨.punctuator .semicolon, ";", 5⟩, .endMark 5] := by cbv
  have hlines : (parseProgram (Source.tokens nestedTargets) 0).errors.map Diagnostic.line? =
      [some 4, some 2] := by
    rw [htokens]
    rfl
  refine ⟨hlines, ?_⟩
  rintro ⟨marks, hordered, herrors⟩
  rw [herrors, List.map_map] at hlines
  obtain ⟨first, others, rfl, hfirst, hothers⟩ := List.map_eq_cons_iff.mp hlines
  obtain ⟨second, none, rfl, hsecond, -⟩ := List.map_eq_cons_iff.mp hothers
  have hplaces : first.place ≤ second.place :=
    (List.pairwise_cons.mp hordered).1 second List.mem_cons_self
  have hdown : first.token.line ≤ second.token.line := Source.line_le hplaces
  have hfirst : first.token.line = 4 := Option.some.inj hfirst
  have hsecond : second.token.line = 2 := Option.some.inj hsecond
  omega

end Programs

end TreeWalk
