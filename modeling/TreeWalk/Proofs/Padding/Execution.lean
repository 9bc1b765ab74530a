import TreeWalk.Proofs.Machine.Relating
import TreeWalk.Proofs.Padding.Lockstep

/-! Programs of which the second has further blocks run abreast. -/

namespace TreeWalk

variable {table table' : HopTable} {φ : Labelling FrameId} {m m' : Machine} {g : Gaps}
  {run run' : Region → Run Flow}

theorem Stmt.execAll_singleton (limit : Nat) (run : Region → Run Flow) (s : Stmt) :
    execAll .resolved limit run [s] = s.exec .resolved limit run := by
  funext m
  simp only [execAll, Run.bind_apply]
  cases s.exec .resolved limit run m with
  | mk result m₁ =>
    cases result with
    | error fault => rfl
    | ok flow => cases flow <;> rfl

/-- To execute a block of one statement is to execute the statement in a new frame. -/
theorem Stmt.exec_block_singleton (limit : Nat) (run : Region → Run Flow) (s : Stmt)
    (m : Machine) : (block [s]).exec .resolved limit run m =
      Run.inNewFrame [] m.scope (s.exec .resolved limit run) m := by
  rw [← execAll_singleton limit run s]
  rfl

/-- Statements end in the same way, with related results. -/
inductive Flow.Padded (table table' : HopTable) (φ : Labelling FrameId) (store store' : Store) :
    Flow → Flow → Prop where
  | normal : Flow.Padded table table' φ store store' .normal .normal
  | returned {v v'} : Value.Padded table table' φ store store' v v' →
      Flow.Padded table table' φ store store' (.returned v) (.returned v')

theorem Flow.Padded.result {store store' : Store} {flow flow' : Flow}
    (h : Flow.Padded table table' φ store store' flow flow') :
    Value.Padded table table' φ store store' flow.result flow'.result := by
  cases h with
  | normal => exact .literal
  | returned hv => exact hv

/-- Bodies run abreast in frames from which the same is seen. -/
def RunsAbreast (table table' : HopTable) (run run' : Region → Run Flow) : Prop :=
  ∀ {φ m m' g params body body'}, m.Padded table table' φ m' →
    g.Sees φ m.store m'.store m.scope m'.scope →
    Stmt.AllPadded (table.Padded table') g body body' →
    Abreast table table' φ m m' (run ⟨params, body⟩) (run' ⟨params, body'⟩)
      (Flow.Padded table table')

section Evaluation

theorem Value.call_abreast (hrun : RunsAbreast table table' run run')
    (h : m.Padded table table' φ m') (paren : Token) {f f' : Value}
    {arguments arguments' : List Value}
    (hf : Value.Padded table table' φ m.store m'.store f f')
    (harguments : List.Forall₂ (Value.Padded table table' φ m.store m'.store) arguments
      arguments') :
    Abreast table table' φ m m' (f.call run paren arguments) (f'.call run' paren arguments')
      (Value.Padded table table') := by
  have hlen := harguments.length_eq
  cases hf with
  | literal => exact .throw h _
  | @host f =>
    simp only [Value.call, ← hlen]
    refine .ite Iff.rfl (.throw h _) ?_
    exact f.reply_rel (Abreast table table' φ m m' · · (Value.Padded table table'))
      (fun _ _ hv => hv.view) (fun _ => .literal) harguments (fun _ => .throw h _)
      (fun _ _ hv => .pure h hv) (.makeHost h)
  | @closure g _ _ params _ _ _ _ hlt hlt' hsees hbody =>
    simp only [Value.call, ← hlen]
    refine .ite Iff.rfl (.throw h _) ?_
    have hbindings (name : String) := Bindings.ofArguments_rel
      (List.forall₂_same.mpr fun p (_ : p ∈ params) => (Iff.rfl : name = p.lexeme ↔ _)) harguments
    have hopened := h.opened hlt hlt' hbindings
    have hinside := hsees.enter h.rooted.nested h.rooted'.nested hlt hlt'
      (Bindings.ofArguments params arguments) (Bindings.ofArguments params arguments')
    refine (Abreast.inNewFrame (hrun hopened hinside hbody) h).bind
      fun φ₁ m₁ m₁' flow flow' _ h₁ hflow => ?_
    exact .pure h₁ hflow.result

mutual

theorem Expr.eval_abreast (hrun : RunsAbreast table table' run run') {φ : Labelling FrameId}
    {m m' : Machine} (h : m.Padded table table' φ m')
    (hsees : g.Sees φ m.store m'.store m.scope m'.scope) (e : Expr)
    (he : ∀ id ∈ e.ids, table.Padded table' g id) :
    Abreast table table' φ m m' (e.eval .resolved run) (e.eval .resolved run')
      (Value.Padded table table') := by
  match e with
  | literal _ => exact .pure h .literal
  | grouping inner =>
    simp only [Expr.eval]
    exact (inner.eval_abreast hrun h hsees he).congr rfl rfl
  | unary operator right =>
    simp only [Expr.eval]
    refine ((right.eval_abreast hrun h hsees he).bind
      fun φ₁ m₁ m₁' v v' _ h₁ hv => ?_).congr rfl rfl
    rw [Operation.unary_of_view hv.view]
    exact .ofOperation h₁ operator fun w hw => Operation.unary_literal hw
  | binary left operator right =>
    simp only [ids, List.mem_append] at he
    simp only [Expr.eval]
    refine ((left.eval_abreast hrun h hsees fun id hid => he id (.inl hid)).bind
      fun φ₁ m₁ m₁' v v' hlater h₁ hv => ?_).congr rfl rfl
    refine (right.eval_abreast hrun h₁ (hsees.kept h hlater) fun id hid => he id (.inr hid)).bind
      fun φ₂ m₂ m₂' w w' hlater₂ h₂ hw => ?_
    rw [Operation.binary_of_view (hv.kept h₁ hlater₂).view hw.view]
    exact .ofOperation h₂ operator fun u hu => Operation.binary_literal hu
  | logical left operator right =>
    simp only [ids, List.mem_append] at he
    simp only [Expr.eval]
    refine ((left.eval_abreast hrun h hsees fun id hid => he id (.inl hid)).bind
      fun φ₁ m₁ m₁' v v' hlater h₁ hv => ?_).congr rfl rfl
    refine .ite (by rw [hv.settles]) (.pure h₁ hv) ?_
    exact right.eval_abreast hrun h₁ (hsees.kept h hlater) fun id hid => he id (.inr hid)
  | var id name =>
    simp only [Expr.eval]
    exact (Abreast.read h hsees (he id List.mem_cons_self)).congr rfl rfl
  | assign id name value =>
    simp only [ids, List.mem_append, List.mem_singleton] at he
    simp only [Expr.eval]
    refine ((value.eval_abreast hrun h hsees fun id hid => he id (.inl hid)).bind
      fun φ₁ m₁ m₁' v v' hlater h₁ hv => ?_).congr rfl rfl
    refine (Abreast.write h₁ (hsees.kept h hlater) (he id (.inr rfl)) hv).bind
      fun φ₂ m₂ m₂' _ _ hlater₂ h₂ _ => ?_
    exact .pure h₂ (hv.kept h₁ hlater₂)
  | call callee paren arguments =>
    simp only [ids, List.mem_append] at he
    simp only [Expr.eval]
    refine ((callee.eval_abreast hrun h hsees fun id hid => he id (.inl hid)).bind
      fun φ₁ m₁ m₁' f f' hlater h₁ hf => ?_).congr rfl rfl
    refine (Expr.evalAll_abreast hrun h₁ (hsees.kept h hlater) arguments
      fun id hid => he id (.inr hid)).bind fun φ₂ m₂ m₂' vs vs' hlater₂ h₂ hvs => ?_
    exact Value.call_abreast hrun h₂ paren (hf.kept h₁ hlater₂) hvs

theorem Expr.evalAll_abreast (hrun : RunsAbreast table table' run run') {φ : Labelling FrameId}
    {m m' : Machine} (h : m.Padded table table' φ m')
    (hsees : g.Sees φ m.store m'.store m.scope m'.scope) (es : List Expr)
    (hes : ∀ id ∈ Expr.idsOfAll es, table.Padded table' g id) :
    Abreast table table' φ m m' (Expr.evalAll .resolved run es) (Expr.evalAll .resolved run' es)
      fun φ₁ store store' => List.Forall₂ (Value.Padded table table' φ₁ store store') := by
  match es with
  | [] => exact .pure h .nil
  | e :: es =>
    simp only [Expr.idsOfAll, List.mem_append] at hes
    simp only [Expr.evalAll]
    refine (e.eval_abreast hrun h hsees fun id hid => hes id (.inl hid)).bind
      fun φ₁ m₁ m₁' v v' hlater h₁ hv => ?_
    refine (Expr.evalAll_abreast hrun h₁ (hsees.kept h hlater) es
      fun id hid => hes id (.inr hid)).bind fun φ₂ m₂ m₂' vs vs' hlater₂ h₂ hvs => ?_
    exact .pure h₂ (.cons (hv.kept h₁ hlater₂) hvs)

end

theorem Expr.evalOption_abreast (hrun : RunsAbreast table table' run run')
    (h : m.Padded table table' φ m') (hsees : g.Sees φ m.store m'.store m.scope m'.scope)
    (e : Option Expr) (he : ∀ id ∈ Expr.idsOfOption e, table.Padded table' g id) :
    Abreast table table' φ m m' (Expr.evalOption .resolved run e)
      (Expr.evalOption .resolved run' e) (Value.Padded table table') := by
  cases e with
  | none => exact .pure h .literal
  | some e => exact e.eval_abreast hrun h hsees he

end Evaluation

section Execution

/-- By induction on the rounds, after each of which the same is seen. -/
theorem Run.iterate_abreast {step step' : Run (Option Flow)}
    (hstep : ∀ {φ m m'}, m.Padded table table' φ m' →
      g.Sees φ m.store m'.store m.scope m'.scope →
      Abreast table table' φ m m' step step' fun φ₁ store store' =>
        Option.Rel (Flow.Padded table table' φ₁ store store'))
    (limit : Nat) {φ : Labelling FrameId} {m m' : Machine} (h : m.Padded table table' φ m')
    (hsees : g.Sees φ m.store m'.store m.scope m'.scope) :
    Abreast table table' φ m m' (Run.iterate step limit) (Run.iterate step' limit)
      (Flow.Padded table table') := by
  induction limit generalizing φ m m' with
  | zero => exact .throw h _
  | succ limit ih =>
    rw [Run.iterate_succ, Run.iterate_succ]
    refine (hstep h hsees).bind fun φ₁ m₁ m₁' flow flow' hlater h₁ hflow => ?_
    cases hflow with
    | none => exact .pure h₁ .normal
    | some hflow =>
      cases hflow with
      | normal => exact ih h₁ (hsees.kept h hlater)
      | returned hv => exact .pure h₁ (.returned hv)

mutual

theorem Stmt.exec_abreast (hrun : RunsAbreast table table' run run') (limit : Nat) {g : Gaps}
    {φ : Labelling FrameId} {m m' : Machine} {s s' : Stmt}
    (hs : Stmt.Padded (table.Padded table') g s s') (h : m.Padded table table' φ m')
    (hsees : g.Sees φ m.store m'.store m.scope m'.scope) :
    Abreast table table' φ m m' (s.exec .resolved limit run) (s'.exec .resolved limit run')
      (Flow.Padded table table') := by
  match hs with
  | @Stmt.Padded.expression _ _ e he =>
    simp only [Stmt.exec]
    exact (e.eval_abreast hrun h hsees he).discard.bind fun _ _ _ _ _ _ h₁ _ => .pure h₁ .normal
  | @Stmt.Padded.print _ _ e he =>
    simp only [Stmt.exec]
    refine (e.eval_abreast hrun h hsees he).bind fun φ₁ m₁ m₁' v v' _ h₁ hv => ?_
    rw [hv.text]
    exact (Abreast.print h₁ _).bind fun _ _ _ _ _ _ h₂ _ => .pure h₂ .normal
  | @Stmt.Padded.declare _ _ name e hg he =>
    simp only [Stmt.exec]
    refine (Expr.evalOption_abreast hrun h hsees e he).bind
      fun φ₁ m₁ m₁' v v' hlater h₁ hv => ?_
    exact (Abreast.define h₁ (hsees.kept h hlater) hg name hv).bind
      fun _ _ _ _ _ _ h₂ _ => .pure h₂ .normal
  | .block hbody =>
    simp only [Stmt.exec]
    obtain ⟨hopened, hinside⟩ := h.opened_empty hsees
    have hbody := Stmt.execAll_abreast hrun limit hbody hopened hinside
    exact (Abreast.inNewFrame hbody h).congr rfl rfl
  | @Stmt.Padded.wrapped _ _ s t ht =>
    -- Only the second machine moves at first: it enters the block that the first one lacks.
    have hopened : m.Padded table table' φ (m'.opened [] m'.scope) := h.further h.rooted'.scope_lt
    have hinside := hsees.under h.rooted'.nested h.rooted'.scope_lt []
    have hstatement := Stmt.exec_abreast hrun limit ht hopened hinside
    exact (Abreast.inFurtherFrame hstatement h).congr rfl
      (Stmt.exec_block_singleton limit run' t m')
  | @Stmt.Padded.ifThen _ _ e t t' he ht =>
    simp only [Stmt.exec]
    refine (e.eval_abreast hrun h hsees he).bind fun φ₁ m₁ m₁' v v' hlater h₁ hv => ?_
    have hthen := Stmt.exec_abreast hrun limit ht h₁ (hsees.kept h hlater)
    exact .ite (by rw [hv.truthy]) hthen (.pure h₁ .normal)
  | @Stmt.Padded.ifElse _ _ e t t' u u' he ht hu =>
    simp only [Stmt.exec]
    refine (e.eval_abreast hrun h hsees he).bind fun φ₁ m₁ m₁' v v' hlater h₁ hv => ?_
    have hthen := Stmt.exec_abreast hrun limit ht h₁ (hsees.kept h hlater)
    have helse := Stmt.exec_abreast hrun limit hu h₁ (hsees.kept h hlater)
    exact .ite (by rw [hv.truthy]) hthen helse
  | @Stmt.Padded.whileLoop _ _ e t t' he ht =>
    simp only [Stmt.exec]
    refine Run.iterate_abreast (fun h hsees => ?_) limit h hsees
    refine (e.eval_abreast hrun h hsees he).bind fun φ₁ m₁ m₁' v v' hlater h₁ hv => ?_
    have hbody := Stmt.exec_abreast hrun limit ht h₁ (hsees.kept h hlater)
    refine .ite (by rw [hv.truthy]) ?_ (.pure h₁ .none)
    exact hbody.bind fun _ _ _ _ _ _ h₂ hflow => .pure h₂ (.some hflow)
  | @Stmt.Padded.function _ _ name params body body' hg hbody =>
    simp only [Stmt.exec]
    refine (Abreast.makeClosure h hsees name params hbody).bind
      fun φ₁ m₁ m₁' v v' hlater h₁ hv => ?_
    exact (Abreast.define h₁ (hsees.kept h hlater) hg name hv).bind
      fun _ _ _ _ _ _ h₂ _ => .pure h₂ .normal
  | @Stmt.Padded.returnFrom _ _ _ e he =>
    simp only [Stmt.exec]
    exact (Expr.evalOption_abreast hrun h hsees e he).bind
      fun _ _ _ _ _ _ h₁ hv => .pure h₁ (.returned hv)

theorem Stmt.execAll_abreast (hrun : RunsAbreast table table' run run') (limit : Nat) {g : Gaps}
    {φ : Labelling FrameId} {m m' : Machine} {ss ss' : List Stmt}
    (hss : Stmt.AllPadded (table.Padded table') g ss ss') (h : m.Padded table table' φ m')
    (hsees : g.Sees φ m.store m'.store m.scope m'.scope) :
    Abreast table table' φ m m' (Stmt.execAll .resolved limit run ss)
      (Stmt.execAll .resolved limit run' ss') (Flow.Padded table table') := by
  match hss with
  | .nil => exact .pure h .normal
  | .cons hs hss =>
    simp only [Stmt.execAll]
    refine (Stmt.exec_abreast hrun limit hs h hsees).bind
      fun φ₁ m₁ m₁' flow flow' hlater h₁ hflow => ?_
    cases hflow with
    | normal => exact Stmt.execAll_abreast hrun limit hss h₁ (hsees.kept h hlater)
    | returned hv => exact .pure h₁ (.returned hv)

end

/-- By induction on the fuel. -/
theorem runBody_abreast (fuel : Nat) :
    RunsAbreast table table' (runBody .resolved fuel) (runBody .resolved fuel) := by
  induction fuel with
  | zero =>
    intro φ m m' g params body body' h _ _
    exact .throw h _
  | succ fuel ih =>
    intro φ m m' g params body body' h hsees hbody
    simp only [runBody]
    exact (Stmt.execAll_abreast ih fuel hbody h hsees).congr rfl rfl

theorem Run.executeEach_abreast (fuel : Nat) {ss ss' : List Stmt}
    (hss : Stmt.AllPadded (table.Padded table') g ss ss') {φ : Labelling FrameId}
    {m m' : Machine} (h : m.Padded table table' φ m')
    (hsees : g.Sees φ m.store m'.store m.scope m'.scope) :
    Abreast table table' φ m m' (Run.executeEach .resolved fuel ss)
      (Run.executeEach .resolved fuel ss') fun _ _ _ _ _ => True := by
  match hss with
  | .nil => exact .pure h trivial
  | .cons hs hss =>
    simp only [Run.executeEach]
    refine (Stmt.exec_abreast (runBody_abreast fuel) fuel hs h hsees).discard.bind
      fun φ₁ m₁ m₁' _ _ hlater h₁ _ => ?_
    exact Run.executeEach_abreast fuel hss h₁ (hsees.kept h hlater)

theorem Run.interpret_abreast (fuel : Nat) {ss ss' : List Stmt}
    (hss : Stmt.AllPadded (table.Padded table') g ss ss') (h : m.Padded table table' φ m')
    (hsees : g.Sees φ m.store m'.store m.scope m'.scope) :
    Abreast table table' φ m m' (Run.interpret .resolved fuel ss)
      (Run.interpret .resolved fuel ss') fun _ _ _ _ _ => True := by
  simp only [Run.interpret]
  exact (Run.executeEach_abreast fuel hss h hsees).bind fun _ _ _ _ _ _ h₁ _ => .flush h₁

end Execution

end TreeWalk
