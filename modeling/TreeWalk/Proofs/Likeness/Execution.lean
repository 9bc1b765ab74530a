import TreeWalk.Proofs.Likeness.Lockstep
import TreeWalk.Proofs.Machine.Relating

/-! Trees that are alike run in lockstep. -/

namespace TreeWalk

variable {l : Likeness} {sorts : Labelling Bool} {m m' : Machine} {o : Outlook}

/-- Statements end alike. -/
inductive Flow.Alike (l : Likeness) (sorts : Labelling Bool) (store : Store) : Flow → Flow → Prop where
  | normal : Flow.Alike l sorts store .normal .normal
  | returned {v v'} : Value.Alike l sorts store v v' →
      Flow.Alike l sorts store (.returned v) (.returned v')

theorem Flow.Alike.result {store : Store} {flow flow' : Flow}
    (h : Flow.Alike l sorts store flow flow') :
    Value.Alike l sorts store flow.result flow'.result := by
  cases h with
  | normal => exact .literal
  | returned hv => exact hv

/-- What fits the current frame goes on to fit it. -/
theorem Outlook.Fits.kept {sorts₁ : Labelling Bool} {m₁ : Machine}
    (ho : o.Fits m.store sorts m.scope) (h : m.Alike l sorts m')
    (hagree : sorts.Agree m.store sorts₁) (hlater : m.Later m₁) :
    o.Fits m₁.store sorts₁ m₁.scope := by
  rw [hlater.scope]
  exact ho.later h.nested h.scope_lt hlater.store hagree

/-- The same parameters are bound to arguments that are alike. -/
theorem Bindings.ofArguments_alike (hl : l.Faithful) {store : Store} {sort : Bool}
    {params params' : List Token} {arguments arguments' : List Value}
    (hparams : List.Forall₂ (l.Name sort) params params')
    (harguments : List.Forall₂ (Value.Alike l sorts store) arguments arguments')
    {n n' : String} (hn : l.spelled sort n n') :
    Option.Rel (Value.Alike l sorts store) ((ofArguments params arguments).lookup n)
      ((ofArguments params' arguments').lookup n') :=
  ofArguments_rel (hparams.imp fun _ _ hname => hl hn hname.spelled) harguments

/-- Bodies that are alike run in lockstep in frames opened for them. -/
def RunsAlike (l : Likeness) (run run' : Region → Run Flow) : Prop :=
  ∀ {sorts m m' sort o r r'}, m.Alike l sorts m' → Region.Alike l sort o r r' →
    (o.enter sort).Fits m.store sorts m.scope →
    Lockstep l sorts m m' (run r) (run' r') (Flow.Alike l)

section Evaluation

variable {run run' : Region → Run Flow}

theorem Value.call_lockstep (hl : l.Faithful) (hrun : RunsAlike l run run') {paren paren' : Token}
    {arguments arguments' : List Value} {f f' : Value} (h : m.Alike l sorts m')
    (hparen : l.Token paren paren') (hf : Value.Alike l sorts m.store f f')
    (harguments : List.Forall₂ (Value.Alike l sorts m.store) arguments arguments') :
    Lockstep l sorts m m' (f.call run paren arguments) (f'.call run' paren' arguments')
      (Value.Alike l) := by
  have hlen := harguments.length_eq
  cases hf with
  | literal => exact .fail h hparen
  | @host f =>
    simp only [Value.call, ← hlen]
    refine .ite Iff.rfl (.fail h hparen) ?_
    exact f.reply_rel (Lockstep l sorts m m' · · (Value.Alike l)) (fun _ _ hv => hv.view)
      (fun _ => .literal) harguments (fun _ => .fail h hparen) (fun _ _ hv => .pure h hv)
      (.makeHost h)
  | @closure f f' sort o hlt hframe hidentity hname hfits hregion =>
    simp only [Value.call, ← hlen, ← hregion.params.length_eq, ← hframe]
    refine .ite Iff.rfl (.fail h hparen) ?_
    have hopened := h.opened sort hlt
      (Bindings.ofArguments_alike hl hregion.params harguments)
    have hbody := hrun hopened hregion (hfits.enter h.nested hlt)
    refine (Lockstep.inNewFrame sort hbody h).bind fun sorts₁ m₁ m₁' flow flow' _ _ h₁ hflow => ?_
    exact .pure h₁ hflow.result

mutual

theorem Expr.eval_lockstep (hl : l.Faithful) (hrun : RunsAlike l run run')
    {sorts : Labelling Bool} {m m' : Machine} {e e' : Expr} (he : Expr.Alike l o e e')
    (h : m.Alike l sorts m') (ho : o.Fits m.store sorts m.scope) :
    Lockstep l sorts m m' (e.eval .resolved run) (e'.eval .resolved run') (Value.Alike l) := by
  match he with
  | .literal => exact .pure h .literal
  | .grouping he =>
    simp only [Expr.eval]
    exact (Expr.eval_lockstep hl hrun he h ho).congr rfl rfl
  | .unary hoperator he =>
    simp only [Expr.eval]
    refine ((Expr.eval_lockstep hl hrun he h ho).bind
      fun sorts₁ m₁ m₁' v v' _ _ h₁ hv => ?_).congr rfl rfl
    rw [hoperator.kind, Operation.unary_of_view hv.view]
    exact .ofOperation h₁ hoperator fun w hw => by
      obtain ⟨c, rfl⟩ := Operation.unary_literal hw
      exact .literal
  | .binary he hoperator he' =>
    simp only [Expr.eval]
    refine ((Expr.eval_lockstep hl hrun he h ho).bind
      fun sorts₁ m₁ m₁' v v' hagree hlater h₁ hv => ?_).congr rfl rfl
    refine (Expr.eval_lockstep hl hrun he' h₁ (ho.kept h hagree hlater)).bind
      fun sorts₂ m₂ m₂' w w' hagree₂ hlater₂ h₂ hw => ?_
    have hv₂ := hv.later h₁.nested hlater₂.store hagree₂
    rw [hoperator.kind, Operation.binary_of_view hv₂.view hw.view]
    exact .ofOperation h₂ hoperator fun u hu => by
      obtain ⟨c, rfl⟩ := Operation.binary_literal hu
      exact .literal
  | .logical he hoperator he' =>
    simp only [Expr.eval]
    refine ((Expr.eval_lockstep hl hrun he h ho).bind
      fun sorts₁ m₁ m₁' v v' hagree hlater h₁ hv => ?_).congr rfl rfl
    have hsettles := hv.settles hoperator
    refine .ite (by rw [hsettles]) (.pure h₁ hv) ?_
    exact Expr.eval_lockstep hl hrun he' h₁ (ho.kept h hagree hlater)
  | .var hid hname =>
    simp only [Expr.eval]
    exact (Lockstep.read h hid hname ho).congr rfl rfl
  | .assign hid hname he =>
    simp only [Expr.eval]
    refine ((Expr.eval_lockstep hl hrun he h ho).bind
      fun sorts₁ m₁ m₁' v v' hagree hlater h₁ hv => ?_).congr rfl rfl
    refine (Lockstep.write hl h₁ hid hname (ho.kept h hagree hlater) hv).bind
      fun sorts₂ m₂ m₂' _ _ hagree₂ hlater₂ h₂ _ => ?_
    exact .pure h₂ (hv.later h₁.nested hlater₂.store hagree₂)
  | .call he hparen hes =>
    simp only [Expr.eval]
    refine ((Expr.eval_lockstep hl hrun he h ho).bind
      fun sorts₁ m₁ m₁' f f' hagree hlater h₁ hf => ?_).congr rfl rfl
    refine (Expr.evalAll_lockstep hl hrun hes h₁ (ho.kept h hagree hlater)).bind
      fun sorts₂ m₂ m₂' vs vs' hagree₂ hlater₂ h₂ hvs => ?_
    exact Value.call_lockstep hl hrun h₂ hparen (hf.later h₁.nested hlater₂.store hagree₂) hvs

theorem Expr.evalAll_lockstep (hl : l.Faithful) (hrun : RunsAlike l run run')
    {sorts : Labelling Bool} {m m' : Machine} {es es' : List Expr}
    (hes : Expr.AllAlike l o es es') (h : m.Alike l sorts m') (ho : o.Fits m.store sorts m.scope) :
    Lockstep l sorts m m' (Expr.evalAll .resolved run es) (Expr.evalAll .resolved run' es')
      fun sorts₁ store₁ => List.Forall₂ (Value.Alike l sorts₁ store₁) := by
  match hes with
  | .nil => exact .pure h .nil
  | .cons he hes =>
    simp only [Expr.evalAll]
    refine (Expr.eval_lockstep hl hrun he h ho).bind
      fun sorts₁ m₁ m₁' v v' hagree hlater h₁ hv => ?_
    have ho₁ := ho.kept h hagree hlater
    refine (Expr.evalAll_lockstep hl hrun hes h₁ ho₁).bind
      fun sorts₂ m₂ m₂' vs vs' hagree₂ hlater₂ h₂ hvs => ?_
    exact .pure h₂ (.cons (hv.later h₁.nested hlater₂.store hagree₂) hvs)

end

theorem Expr.evalOption_lockstep (hl : l.Faithful) (hrun : RunsAlike l run run')
    {e e' : Option Expr} (he : Expr.OptionAlike l o e e') (h : m.Alike l sorts m')
    (ho : o.Fits m.store sorts m.scope) :
    Lockstep l sorts m m' (Expr.evalOption .resolved run e) (Expr.evalOption .resolved run' e')
      (Value.Alike l) := by
  cases he with
  | none => exact .pure h .literal
  | some he => exact Expr.eval_lockstep hl hrun he h ho

end Evaluation

section Execution

variable {run run' : Region → Run Flow}

/-- By induction on the rounds, each of which leaves the machines alike. -/
theorem Run.iterate_lockstep {step step' : Run (Option Flow)}
    (hstep : ∀ {sorts m m'}, m.Alike l sorts m' → o.Fits m.store sorts m.scope →
      Lockstep l sorts m m' step step' fun sorts₁ store₁ =>
        Option.Rel (Flow.Alike l sorts₁ store₁))
    (limit : Nat) {sorts : Labelling Bool} {m m' : Machine} (h : m.Alike l sorts m')
    (ho : o.Fits m.store sorts m.scope) :
    Lockstep l sorts m m' (Run.iterate step limit) (Run.iterate step' limit) (Flow.Alike l) := by
  induction limit generalizing sorts m m' with
  | zero => exact .exhausted h
  | succ limit ih =>
    rw [Run.iterate_succ, Run.iterate_succ]
    refine (hstep h ho).bind fun sorts₁ m₁ m₁' flow flow' hagree hlater h₁ hflow => ?_
    cases hflow with
    | none => exact .pure h₁ .normal
    | some hflow =>
      cases hflow with
      | normal => exact ih h₁ (ho.kept h hagree hlater)
      | returned hv => exact .pure h₁ (.returned hv)

mutual

theorem Stmt.exec_lockstep (hl : l.Faithful) (hrun : RunsAlike l run run') (limit : Nat)
    {o : Outlook} {sorts : Labelling Bool} {m m' : Machine} {s s' : Stmt}
    (hs : Stmt.Alike l o s s') (h : m.Alike l sorts m') (ho : o.Fits m.store sorts m.scope) :
    Lockstep l sorts m m' (s.exec .resolved limit run) (s'.exec .resolved limit run')
      (Flow.Alike l) := by
  match hs with
  | .expression he =>
    simp only [Stmt.exec]
    exact (Expr.eval_lockstep hl hrun he h ho).discard.bind
      fun _ _ _ _ _ _ _ h₁ _ => .pure h₁ .normal
  | .print he =>
    simp only [Stmt.exec]
    refine (Expr.eval_lockstep hl hrun he h ho).bind fun sorts₁ m₁ m₁' v v' _ _ h₁ hv => ?_
    rw [hv.text]
    exact (Lockstep.print h₁).bind fun _ _ _ _ _ _ _ h₂ _ => .pure h₂ .normal
  | .declare hname he =>
    simp only [Stmt.exec]
    refine (Expr.evalOption_lockstep hl hrun he h ho).bind
      fun sorts₁ m₁ m₁' v v' hagree hlater h₁ hv => ?_
    have hsort := (ho.kept h hagree hlater).current
    exact (Lockstep.define hl h₁ (hsort ▸ hname.spelled) hv).bind
      fun _ _ _ _ _ _ _ h₂ _ => .pure h₂ .normal
  | .block sort hbody =>
    simp only [Stmt.exec]
    -- The frame opens empty, so no binding of it has to be matched.
    have hempty : ∀ {n n'}, l.spelled sort n n' → Option.Rel (Value.Alike l sorts m.store)
        (([] : Bindings).lookup n) (([] : Bindings).lookup n') := fun _ => .none
    have hopened := h.opened sort h.scope_lt hempty
    have hbody := Stmt.execAll_lockstep hl hrun limit hbody hopened (ho.enter h.nested h.scope_lt)
    refine (Lockstep.inNewFrame sort hbody h).congr rfl ?_
    rw [h.scope]
    rfl
  | .ifThen he hs =>
    simp only [Stmt.exec]
    refine (Expr.eval_lockstep hl hrun he h ho).bind
      fun sorts₁ m₁ m₁' v v' hagree hlater h₁ hv => ?_
    have hthen := Stmt.exec_lockstep hl hrun limit hs h₁ (ho.kept h hagree hlater)
    exact .ite (by rw [hv.truthy]) hthen (.pure h₁ .normal)
  | .ifElse he hs ht =>
    simp only [Stmt.exec]
    refine (Expr.eval_lockstep hl hrun he h ho).bind
      fun sorts₁ m₁ m₁' v v' hagree hlater h₁ hv => ?_
    have ho₁ := ho.kept h hagree hlater
    have hthen := Stmt.exec_lockstep hl hrun limit hs h₁ ho₁
    exact .ite (by rw [hv.truthy]) hthen (Stmt.exec_lockstep hl hrun limit ht h₁ ho₁)
  | .whileLoop he hs =>
    simp only [Stmt.exec]
    refine Run.iterate_lockstep (fun h ho => ?_) limit h ho
    refine (Expr.eval_lockstep hl hrun he h ho).bind
      fun sorts₁ m₁ m₁' v v' hagree hlater h₁ hv => ?_
    have hbody := Stmt.exec_lockstep hl hrun limit hs h₁ (ho.kept h hagree hlater)
    refine .ite (by rw [hv.truthy]) ?_ (.pure h₁ .none)
    exact hbody.bind fun _ _ _ _ _ _ _ h₂ hflow => .pure h₂ (.some hflow)
  | .function sort hname hspelled hparams hbody =>
    simp only [Stmt.exec]
    refine (Lockstep.makeClosure h hname ho ⟨hparams, hbody⟩).bind
      fun sorts₁ m₁ m₁' v v' hagree hlater h₁ hv => ?_
    have hsort := (ho.kept h hagree hlater).current
    exact (Lockstep.define hl h₁ (hsort ▸ hspelled) hv).bind
      fun _ _ _ _ _ _ _ h₂ _ => .pure h₂ .normal
  | .returnFrom _ he =>
    simp only [Stmt.exec]
    exact (Expr.evalOption_lockstep hl hrun he h ho).bind
      fun _ _ _ _ _ _ _ h₁ hv => .pure h₁ (.returned hv)

theorem Stmt.execAll_lockstep (hl : l.Faithful) (hrun : RunsAlike l run run') (limit : Nat)
    {o : Outlook} {sorts : Labelling Bool} {m m' : Machine} {ss ss' : List Stmt}
    (hss : Stmt.AllAlike l o ss ss') (h : m.Alike l sorts m')
    (ho : o.Fits m.store sorts m.scope) :
    Lockstep l sorts m m' (Stmt.execAll .resolved limit run ss)
      (Stmt.execAll .resolved limit run' ss') (Flow.Alike l) := by
  match hss with
  | .nil => exact .pure h .normal
  | .cons hs hss =>
    simp only [Stmt.execAll]
    refine (Stmt.exec_lockstep hl hrun limit hs h ho).bind
      fun sorts₁ m₁ m₁' flow flow' hagree hlater h₁ hflow => ?_
    cases hflow with
    | normal => exact Stmt.execAll_lockstep hl hrun limit hss h₁ (ho.kept h hagree hlater)
    | returned hv => exact .pure h₁ (.returned hv)

end

/-- By induction on the fuel. -/
theorem runBody_lockstep (hl : l.Faithful) (fuel : Nat) :
    RunsAlike l (runBody .resolved fuel) (runBody .resolved fuel) := by
  induction fuel with
  | zero =>
    intro sorts m m' sort o r r' h _ _
    exact .exhausted h
  | succ fuel ih =>
    intro sorts m m' sort o r r' h hr ho
    simp only [runBody]
    exact (Stmt.execAll_lockstep hl ih fuel hr.body h ho).congr rfl rfl

theorem Run.executeEach_lockstep (hl : l.Faithful) (fuel : Nat) {ss ss' : List Stmt}
    (hss : Stmt.AllAlike l o ss ss') {sorts : Labelling Bool} {m m' : Machine}
    (h : m.Alike l sorts m') (ho : o.Fits m.store sorts m.scope) :
    Lockstep l sorts m m' (Run.executeEach .resolved fuel ss) (Run.executeEach .resolved fuel ss')
      fun _ _ _ _ => True := by
  match hss with
  | .nil => exact .pure h trivial
  | .cons hs hss =>
    simp only [Run.executeEach]
    refine (Stmt.exec_lockstep hl (runBody_lockstep hl fuel) fuel hs h ho).discard.bind
      fun sorts₁ m₁ m₁' _ _ hagree hlater h₁ _ => ?_
    exact Run.executeEach_lockstep hl fuel hss h₁ (ho.kept h hagree hlater)

theorem Run.interpret_lockstep (hl : l.Faithful) (fuel : Nat) {ss ss' : List Stmt}
    (hss : Stmt.AllAlike l o ss ss') (h : m.Alike l sorts m')
    (ho : o.Fits m.store sorts m.scope) :
    Lockstep l sorts m m' (Run.interpret .resolved fuel ss) (Run.interpret .resolved fuel ss')
      fun _ _ _ _ => True := by
  simp only [Run.interpret]
  exact (Run.executeEach_lockstep hl fuel hss h ho).bind fun _ _ _ _ _ _ _ h₁ _ => .flush h₁

end Execution

end TreeWalk
