import TreeWalk.Proofs.Machine.NameWalk

/-! Code of a program in which names suffice does the same whether variables are found by their hop
counts or by name. What is known of the machine comes from the run by hop counts; that the run by
name is in the same machine at every step is the induction. -/

namespace TreeWalk

variable {p : Program} {c : Context} {m m' : Machine} {regions : List Region}
  {scopes : List Scope} {α β : Type}

namespace Run

/-- Two actions in turn do the same as two others if the first ones do, and the second ones do
wherever the first ones succeed. -/
theorem bind_congr {r r' : Run α} {f f' : α → Run β} (hr : r m = r' m)
    (hf : ∀ a m', r' m = (.ok a, m') → f a m' = f' a m') : (r >>= f) m = (r' >>= f') m := by
  rw [Run.bind_apply, Run.bind_apply, hr]
  cases h : r' m with
  | mk result m' =>
    cases result with
    | error fault => rfl
    | ok a => exact hf a m' h

/-- Neither policy does anything at an event. -/
theorem observe_congr (event : Event) {r r' : Run α} (h : r m = r' m) :
    (Policy.byName.observe event >>= fun _ => r) m =
      (Policy.resolved.observe event >>= fun _ => r') m :=
  h

/-- Both sides take the same branch. -/
theorem ite_congr {b : Prop} [Decidable b] {r r' s s' : Run α} (hr : b → r m = r' m)
    (hs : ¬b → s m = s' m) : (if b then r else s) m = (if b then r' else s') m := by
  split
  · next hb => exact hr hb
  · next hb => exact hs hb

theorem discard_congr {r r' : Run α} (hr : r m = r' m) : discard r m = discard r' m := by
  rw [Run.discard_eq, Run.discard_eq]
  exact bind_congr hr fun _ _ _ => rfl

theorem inNewFrame_congr {bindings : Bindings} {enclosing : FrameId} {action action' : Run α}
    (h : action (m.opened bindings enclosing) = action' (m.opened bindings enclosing)) :
    Run.inNewFrame bindings enclosing action m = Run.inNewFrame bindings enclosing action' m := by
  rw [Machine.opened] at h
  rw [Run.inNewFrame_apply, Run.inNewFrame_apply]
  simp only [h]

/-- What follows a run of two actions in turn that succeeds. -/
theorem bind_ok {r : Run α} {f : α → Run β} {b : β} (h : (r >>= f) m = (.ok b, m')) :
    ∃ a m₁, r m = (.ok a, m₁) ∧ f a m₁ = (.ok b, m') := by
  rw [Run.bind_apply] at h
  cases hr : r m with
  | mk result m₁ =>
    rw [hr] at h
    cases result with
    | error fault => cases h
    | ok a => exact ⟨a, m₁, rfl, h⟩

end Run

/-- Running the bodies of functions is safe and keeps to what it can reach, and it is the same by name
as by hop counts where a body stands in its program. -/
structure Program.Runs (p : Program) (run : Policy → Region → Run Flow) : Prop where
  safe : RunsBodies [p] run
  stays : ∀ t, BodiesStay t (run .resolved)
  same : ∀ c m r regions scopes,
    Standing p c m (r :: regions) (Region.scopes r.params scopes) →
      p.HasBody (r :: regions) true (Region.scopes r.params scopes) r.body →
        run .byName r m = run .resolved r m

namespace Standing

/-- A frame has been opened for a part of the program, with its parameters bound. -/
theorem called (hs : m.Sound [p] c) {frame : FrameId}
    (hr : Realises c m.store m.globals regions scopes frame) (r : Region) (arguments : List Value)
    (hlen : arguments.length = r.params.length)
    (harguments : ∀ v ∈ arguments, v.Placed [p] c m.store m.globals) {n : Nat}
    (hcall : p.InCall (r :: regions) (n + 1)) (hnoted : Noted m.store n scopes frame) :
    Standing p (c.extend m.store.nextFrame (r :: regions))
      (m.opened (.ofArguments r.params arguments) frame) (r :: regions)
      (Region.scopes r.params scopes) := by
  have hlt := hs.lt_nextFrame hr
  have hbindings (name : String) (v : Value)
      (hv : (Bindings.ofArguments r.params arguments).lookup name = some v) :
      v.Placed [p] c m.store m.globals :=
    harguments v (Bindings.mem_of_lookup_ofArguments hv).1
  refine ⟨hs.opened hlt hbindings (r :: regions) ?_, hr.called r arguments hlen, n + 1, hcall, ?_⟩
  · rintro r' ⟨⟩ name hname
    exact Region.declares_ofArguments hname
  · rw [Region.scopes_eq]
    refine hnoted.opened hs.nested hlt fun name hname => ?_
    obtain ⟨v, hv⟩ := Option.isSome_iff_exists.mp hname
    obtain ⟨t, ht, rfl⟩ := (Bindings.mem_of_lookup_ofArguments hv).2
    exact List.lookup_isSome_iff.mpr
      ⟨_, List.mem_map_of_mem (List.mem_reverse.mpr ht), beq_self_eq_true t.lexeme⟩

/-- After an action that declares nothing, code stands as before. -/
theorem quietly (h : Standing p c m regions scopes) {r : Policy → Run α}
    {q : Context → Machine → α → Prop} (hsafe : Safe [p] c m r q)
    (hkeeps : m.Keeps [] (r .resolved m).2) {a : α} (hm : r .resolved m = (.ok a, m')) :
    ∃ c', Standing p c' m' regions scopes ∧ q c' m' a ∧ c.Agree m.store c' ∧ m.Later m' := by
  obtain ⟨c', hagree, hlater, hsound, hpost⟩ := hsafe.ended hm
  rw [hm] at hkeeps
  have hrealises := hlater.realises h.realises hagree
  exact ⟨c', h.later hsound hrealises hkeeps (Scope.adds_self scopes), hpost a rfl, hagree, hlater⟩

section Evaluated

variable {run : Policy → Region → Run Flow}

theorem evaluated (h : Standing p c m regions scopes) (hrun : p.Runs run) {e : Expr}
    (he : p.HasExpr regions scopes e) {v : Value}
    (hm : e.eval .resolved (run .resolved) m = (.ok v, m')) :
    ∃ c', Standing p c' m' regions scopes ∧ v.Placed [p] c' m'.store m'.globals ∧
      c.Agree m.store c' ∧ m.Later m' :=
  h.quietly (e.eval_safe hrun.safe (List.mem_singleton_self p) he h.sound h.realises)
    (e.eval_stays (hrun.stays _) m.within_everywhere).keeps hm

/-- After a statement that did not return, code stands in the scopes after the statement. -/
theorem executed (h : Standing p c m regions scopes) (hrun : p.Runs run) {limit : Nat}
    {inFunction : Bool} {s : Stmt} (hs : p.HasStmt regions inFunction scopes s)
    (hm : s.exec .resolved limit (run .resolved) m = (.ok .normal, m')) :
    ∃ c', Standing p c' m' regions (s.findings inFunction scopes).1 := by
  have hsafe := s.exec_safe hrun.safe limit (List.mem_singleton_self p) hs h.sound h.realises
  have hkeeps := (s.exec_stays (hrun.stays _) limit m.within_everywhere).keeps
  obtain ⟨c', hagree, hlater, hsound, hpost⟩ := hsafe.ended hm
  rw [hm] at hkeeps
  have hrealises := (hpost .normal rfl).2 rfl
  exact ⟨c', h.later hsound hrealises hkeeps (Stmt.adds_findings hs.regular inFunction scopes)⟩

end Evaluated

end Standing

section Evaluation

variable {run : Policy → Region → Run Flow}

theorem Value.call_same (hrun : p.Runs run) (hs : m.Sound [p] c) {f : Value}
    (hf : f.Placed [p] c m.store m.globals) {paren : Token} {arguments : List Value}
    (harguments : ∀ v ∈ arguments, v.Placed [p] c m.store m.globals) :
    f.call (run .byName) paren arguments m = f.call (run .resolved) paren arguments m := by
  cases f with
  | literal _ | host _ => rfl
  | closure f =>
    obtain ⟨p', hp', regions, scopes, hr, hbody, hplace⟩ := hf
    obtain rfl := List.mem_singleton.mp hp'
    simp only [Value.call]
    refine Run.ite_congr (fun _ => rfl) fun hlen => ?_
    -- In the call everything outside of the body belongs to where the function was declared.
    have hopened : Standing p' _ _ _ _ := .called hs hr ⟨f.params, f.body⟩ arguments
      (Decidable.not_not.mp hlen) harguments (.body hplace) fun k hk => by cases hk
    have hsame := hrun.same _ _ ⟨f.params, f.body⟩ _ _ hopened hbody
    exact Run.bind_congr (Run.inNewFrame_congr hsame) fun _ _ _ => rfl

mutual

theorem Expr.eval_same (hp : p.NamesSuffice) (hrun : p.Runs run) {c : Context} {m : Machine}
    {e : Expr} (he : p.HasExpr regions scopes e) (h : Standing p c m regions scopes) :
    e.eval .byName (run .byName) m = e.eval .resolved (run .resolved) m := by
  match e with
  | .literal _ => rfl
  | .grouping inner => exact Run.observe_congr _ (inner.eval_same hp hrun he.of_grouping h)
  | .unary operator right =>
    refine Run.observe_congr _ (Run.bind_congr ?_ fun _ _ _ => rfl)
    exact right.eval_same hp hrun he.of_unary h
  | .binary left operator right =>
    refine Run.observe_congr _ (Run.bind_congr ?_ fun v m₁ hm₁ => ?_)
    · exact left.eval_same hp hrun he.of_binary.1 h
    · obtain ⟨c₁, h₁, -⟩ := h.evaluated hrun he.of_binary.1 hm₁
      exact Run.bind_congr (right.eval_same hp hrun he.of_binary.2 h₁) fun _ _ _ => rfl
  | .logical left operator right =>
    refine Run.observe_congr _ (Run.bind_congr ?_ fun v m₁ hm₁ => ?_)
    · exact left.eval_same hp hrun he.of_logical.1 h
    · obtain ⟨c₁, h₁, -⟩ := h.evaluated hrun he.of_logical.1 hm₁
      refine Run.ite_congr (fun _ => rfl) fun _ => ?_
      exact right.eval_same hp hrun he.of_logical.2 h₁
  | .var id name => exact Run.observe_congr _ (h.read_same hp he)
  | .assign id name value =>
    refine Run.observe_congr _ (Run.bind_congr ?_ fun v m₁ hm₁ => ?_)
    · exact value.eval_same hp hrun he.of_assign h
    · obtain ⟨c₁, h₁, -⟩ := h.evaluated hrun he.of_assign hm₁
      exact Run.bind_congr (h₁.write_same hp he v) fun _ _ _ => rfl
  | .call callee paren arguments =>
    refine Run.observe_congr _ (Run.bind_congr ?_ fun f m₁ hm₁ => ?_)
    · exact callee.eval_same hp hrun he.of_call.1 h
    obtain ⟨c₁, h₁, hf, -⟩ := h.evaluated hrun he.of_call.1 hm₁
    -- The function is placed before its arguments are evaluated, and still is afterwards.
    refine Run.bind_congr (Expr.evalAll_same hp hrun he.of_call.2 h₁) fun vs m₂ hm₂ => ?_
    have hsafe := Expr.evalAll_safe hrun.safe (List.mem_singleton_self p) he.of_call.2 h₁.sound
      h₁.realises
    obtain ⟨c₂, h₂, hvs, hagree, hlater⟩ := h₁.quietly hsafe
      (Expr.evalAll_stays (hrun.stays _) m₁.within_everywhere arguments).keeps hm₂
    exact Value.call_same hrun h₂.sound (hlater.placed hf hagree) hvs

theorem Expr.evalAll_same (hp : p.NamesSuffice) (hrun : p.Runs run) {c : Context} {m : Machine}
    {es : List Expr} (he : p.HasExprs regions scopes es) (h : Standing p c m regions scopes) :
    Expr.evalAll .byName (run .byName) es m = Expr.evalAll .resolved (run .resolved) es m := by
  match es with
  | [] => rfl
  | e :: es =>
    simp only [Expr.evalAll]
    refine Run.bind_congr (e.eval_same hp hrun he.of_cons.1 h) fun v m₁ hm₁ => ?_
    obtain ⟨c₁, h₁, -⟩ := h.evaluated hrun he.of_cons.1 hm₁
    exact Run.bind_congr (Expr.evalAll_same hp hrun he.of_cons.2 h₁) fun _ _ _ => rfl

end

theorem Expr.evalOption_same (hp : p.NamesSuffice) (hrun : p.Runs run) {e : Option Expr}
    (he : ∀ e' ∈ e, p.HasExpr regions scopes e') (h : Standing p c m regions scopes) :
    Expr.evalOption .byName (run .byName) e m =
      Expr.evalOption .resolved (run .resolved) e m := by
  cases e with
  | none => rfl
  | some e => exact e.eval_same hp hrun (he e rfl) h

end Evaluation

section Execution

/-- By induction on the rounds, each of which keeps what the next one starts from. -/
theorem Run.iterate_congr {step step' : Run (Option Flow)} (start : Machine → Prop)
    (hstep : ∀ m, start m → step m = step' m)
    (hkeep : ∀ m m', start m → step' m = (.ok (some .normal), m') → start m') (limit : Nat)
    {m : Machine} (h : start m) : Run.iterate step limit m = Run.iterate step' limit m := by
  induction limit generalizing m with
  | zero => rfl
  | succ limit ih =>
    rw [Run.iterate_succ, Run.iterate_succ]
    refine Run.bind_congr (hstep m h) fun o m₁ hm₁ => ?_
    rcases o with _ | _ | v
    · rfl
    · exact ih (hkeep m m₁ h hm₁)
    · rfl

variable {run : Policy → Region → Run Flow}

mutual

theorem Stmt.exec_same (hp : p.NamesSuffice) (hrun : p.Runs run) (limit : Nat)
    {inFunction : Bool} {regions : List Region} {scopes : List Scope} {c : Context} {m : Machine}
    {s : Stmt} (hs : p.HasStmt regions inFunction scopes s) (h : Standing p c m regions scopes) :
    s.exec .byName limit (run .byName) m = s.exec .resolved limit (run .resolved) m := by
  match s with
  | .expression e =>
    have hsame := e.eval_same hp hrun hs.of_expression h
    exact Run.bind_congr (Run.discard_congr hsame) fun _ _ _ => rfl
  | .print e =>
    have hsame := e.eval_same hp hrun hs.of_print h
    exact Run.bind_congr hsame fun _ _ _ => rfl
  | .declare name initializer =>
    have hsame : Expr.evalOption .byName (run .byName) initializer m =
        Expr.evalOption .resolved (run .resolved) initializer m := by
      refine Expr.evalOption_same hp hrun ?_ (h.note (hs.declared name rfl))
      rintro e rfl
      exact hs.of_declare
    exact Run.bind_congr hsame fun _ _ _ => rfl
  | .block body =>
    -- A block is taken for a call without parameters: an empty frame over the current one.
    obtain ⟨n, hcall, hnoted⟩ := h.near
    have hopened : Standing p _ (m.opened [] m.scope) (⟨[], body⟩ :: regions) ([] :: scopes) :=
      .called h.sound h.realises ⟨[], body⟩ [] rfl (fun v hv => by cases hv) (.block hcall) hnoted
    have hsame := Stmt.execAll_same hp hrun limit hs.of_block hopened
    exact Run.inNewFrame_congr (Run.observe_congr (.entry ⟨[], body⟩) hsame)
  | .ifThen condition thenBranch =>
    refine Run.bind_congr (condition.eval_same hp hrun hs.of_ifThen.1 h) fun v m₁ hm₁ => ?_
    obtain ⟨c₁, h₁, -⟩ := h.evaluated hrun hs.of_ifThen.1 hm₁
    refine Run.ite_congr (fun _ => ?_) fun _ => rfl
    exact thenBranch.exec_same hp hrun limit hs.of_ifThen.2 h₁
  | .ifElse condition thenBranch elseBranch =>
    refine Run.bind_congr (condition.eval_same hp hrun hs.of_ifElse.1 h) fun v m₁ hm₁ => ?_
    obtain ⟨c₁, h₁, -⟩ := h.evaluated hrun hs.of_ifElse.1 hm₁
    refine Run.ite_congr (fun _ => ?_) fun _ => ?_
    · exact thenBranch.exec_same hp hrun limit hs.of_ifElse.2.1 h₁
    · exact elseBranch.exec_same hp hrun limit hs.of_ifElse.2.2 h₁
  | .whileLoop condition body =>
    refine Run.iterate_congr (fun m => ∃ c, Standing p c m regions scopes) ?_ ?_ limit ⟨c, h⟩
    · -- One round is the same under both policies.
      rintro m ⟨c, h⟩
      refine Run.bind_congr (condition.eval_same hp hrun hs.of_whileLoop.1 h) fun v m₁ hm₁ => ?_
      obtain ⟨c₁, h₁, -⟩ := h.evaluated hrun hs.of_whileLoop.1 hm₁
      refine Run.ite_congr (fun _ => ?_) fun _ => rfl
      exact Run.bind_congr (body.exec_same hp hrun limit hs.of_whileLoop.2 h₁) fun _ _ _ => rfl
    · -- A round that goes on leaves the place of the loop as it was, for the body declares nothing.
      rintro m m' ⟨c, h⟩ hm
      obtain ⟨v, m₁, hm₁, hrest⟩ := Run.bind_ok hm
      obtain ⟨c₁, h₁, -⟩ := h.evaluated hrun hs.of_whileLoop.1 hm₁
      by_cases htruthy : v.truthy = true
      · rw [if_pos htruthy] at hrest
        obtain ⟨flow, m₂, hm₂, hflow⟩ := Run.bind_ok hrest
        cases hflow
        obtain ⟨c₂, h₂⟩ := h₁.executed hrun hs.of_whileLoop.2 hm₂
        rw [Stmt.scopes_findings hs.regular.1 hs.regular.2] at h₂
        exact ⟨c₂, h₂⟩
      · rw [if_neg htruthy] at hrest
        cases hrest
  | .function name params body => rfl
  | .returnFrom keyword value =>
    have hsame : Expr.evalOption .byName (run .byName) value m =
        Expr.evalOption .resolved (run .resolved) value m := by
      refine Expr.evalOption_same hp hrun ?_ h
      rintro e rfl
      exact hs.of_returnFrom
    exact Run.bind_congr hsame fun _ _ _ => rfl

theorem Stmt.execAll_same (hp : p.NamesSuffice) (hrun : p.Runs run) (limit : Nat)
    {inFunction : Bool} {regions : List Region} {scopes : List Scope} {c : Context} {m : Machine}
    {ss : List Stmt} (hs : p.HasBody regions inFunction scopes ss)
    (h : Standing p c m regions scopes) :
    Stmt.execAll .byName limit (run .byName) ss m =
      Stmt.execAll .resolved limit (run .resolved) ss m := by
  match ss with
  | [] => rfl
  | s :: ss =>
    refine Run.bind_congr (s.exec_same hp hrun limit hs.of_cons.1 h) fun flow m₁ hm₁ => ?_
    cases flow with
    | normal =>
      obtain ⟨c₁, h₁⟩ := h.executed hrun hs.of_cons.1 hm₁
      exact Stmt.execAll_same hp hrun limit hs.of_cons.2 h₁
    | returned v => rfl

end

/-- By induction on the fuel, which calls inside calls use up. -/
theorem runBody_same (hp : p.NamesSuffice) (fuel : Nat) :
    p.Runs fun policy => runBody policy fuel := by
  refine ⟨runBody_safe fuel, fun t => runBody_stays fuel, ?_⟩
  induction fuel with
  | zero =>
    intro c m r regions scopes _ _
    rfl
  | succ fuel ih =>
    intro c m r regions scopes h hbody
    have hrun : p.Runs fun policy => runBody policy fuel :=
      ⟨runBody_safe fuel, fun t => runBody_stays fuel, ih⟩
    exact Run.observe_congr _ (Stmt.execAll_same hp hrun fuel hbody h)

/-- The statements of a whole program, each of which starts in the globals again. -/
theorem Run.executeEach_same (hp : p.NamesSuffice) (fuel : Nat) {c : Context} {m : Machine}
    {ss : List Stmt} (hs : p.HasBody [] false [] ss) (hsound : m.Sound [p] c)
    (hscope : m.scope = m.globals) :
    Run.executeEach .byName fuel ss m = Run.executeEach .resolved fuel ss m := by
  induction ss generalizing c m with
  | nil => rfl
  | cons s ss ih =>
    have hrun := runBody_same hp fuel
    have h := Standing.of_globals hsound hscope
    have hfirst := s.exec_same hp hrun fuel hs.of_cons.1 h
    refine Run.bind_congr (Run.discard_congr hfirst) fun _ m₁ hm₁ => ?_
    have hsafe := s.exec_safe hrun.safe fuel (List.mem_singleton_self p) hs.of_cons.1 h.sound
      h.realises
    obtain ⟨c₁, -, hlater, hsound₁, -⟩ := hsafe.discard.ended hm₁
    have hrest := hs.of_cons.2
    rw [Stmt.scopes_findings_nil] at hrest
    refine ih hrest hsound₁ ?_
    rw [hlater.scope, hlater.globals, hscope]

theorem Run.interpret_same (hp : p.NamesSuffice) (fuel : Nat)
    (hs : p.HasBody [] false [] p.statements) (hsound : m.Sound [p] c)
    (hscope : m.scope = m.globals) :
    Run.interpret .byName fuel p.statements m = Run.interpret .resolved fuel p.statements m :=
  Run.bind_congr (Run.executeEach_same hp fuel hs hsound hscope) fun _ _ _ => rfl

end Execution

end TreeWalk
