import TreeWalk.Proofs.Machine.Safe

/-! Running code of a program keeps a machine sound, so that every hop count leads to the binding
it was recorded for. -/

namespace TreeWalk

variable {ps : List Program} {p : Program} {regions : List Region} {scopes : List Scope}

/-- Before an expression of a program is evaluated in its place, the event holds. A variable that
is read is ready, for the resolver rejects a read in the initializer of the variable. -/
theorem Program.HasExpr.holds {c : Context} {m : Machine} {e : Expr}
    (h : p.HasExpr regions scopes e) (hp : p ∈ ps) (hs : m.Sound ps c)
    (hr : Realises c m.store m.globals regions scopes m.scope) {cf : Context}
    (hcf : c.Agree m.store cf) : (Event.evaluation e).Holds ps cf m := by
  have hlt := hs.lt_nextFrame hr
  have hglobals := hs.globals_lt
  have hr' := hr.later (.refl m.store) hcf
  obtain ⟨frames, hchain, hframes⟩ := hr'.chain hs.nested hglobals hs.outermost
  refine ⟨p, hp, regions, frames, h.sites e e.mem_parts_self, hchain, hframes, ?_⟩
  rintro id name rfl
  -- What the resolver found for the name, and that it was no error.
  obtain ⟨hid, hhops⟩ := h.recorded rfl
  have hready : Scope.inInitializer scopes name.lexeme = false := by
    rw [Bool.eq_false_iff]
    intro hunready
    refine h.found (.error (.scoping name .ownInitializer)) ?_
    rw [Expr.findings, if_pos hunready]
    exact List.mem_cons_self
  refine ⟨hs.hops p hp id hid, fun d hd => ?_⟩
  rw [hhops] at hd
  obtain ⟨region, f, scope, ready, hregion, hancestor, hscope, hlookup, hdeclares, -, hbinds⟩ :=
    hr'.of_hops hd
  have hbound : ready = true := by
    cases ready with
    | true => rfl
    | false =>
      cases d with
      | zero =>
        have hhead : scopes.head? = some scope := by rw [← hscope, List.head?_eq_getElem?]
        simp [Scope.inInitializer, hhead, hlookup] at hready
      | succ d =>
        have htail : scope ∈ scopes.tail := by
          rw [← List.getElem?_tail] at hscope
          exact List.mem_of_getElem? hscope
        exact absurd hlookup (h.settled scope htail name.lexeme)
  subst hbound
  obtain ⟨v, hv⟩ := Option.isSome_iff_exists.mp (hbinds (Scope.mem_of_lookup hlookup))
  refine ⟨f, region, v, ?_, hregion, hdeclares, hv, ?_⟩
  · rw [← hs.nested.getElem?_chain hlt, hchain] at hancestor
    have hd' : d < frames.length := by
      have hlen := congrArg List.length hframes
      have := (List.getElem?_eq_some_iff.mp hregion).1
      simp only [List.length_map] at hlen
      omega
    rwa [List.getElem?_append_left hd'] at hancestor
  · rw [Store.getAt, Store.readIn, hancestor, Option.bind_some, hv]

/-- When the value of an assignment has been evaluated, the write holds. The resolver lets a name
be assigned to in its own initializer, where nothing binds it unless it was declared before. -/
theorem Program.HasExpr.write_holds {c : Context} {m : Machine} {id : NodeId} {name : Token}
    {e : Expr} (h : p.HasExpr regions scopes (.assign id name e)) (hp : p ∈ ps) (hs : m.Sound ps c)
    (hr : Realises c m.store m.globals regions scopes m.scope) (v : Value) {cf : Context}
    (hcf : c.Agree m.store cf) : Write.Holds ps cf m ⟨id, name, v⟩ := by
  have hr' := hr.later (.refl m.store) hcf
  obtain ⟨hid, hhops⟩ := h.recorded rfl
  have hself := Expr.mem_parts_self (.assign id name e)
  refine ⟨p, hp, regions, e, h.sites _ hself, hs.hops p hp id hid, fun d hd => ?_⟩
  rw [hhops] at hd
  obtain ⟨region, f, scope, ready, hregion, hancestor, hscope, hlookup, hdeclares, hactivation,
    hbinds⟩ := hr'.of_hops hd
  refine ⟨f, region, hancestor, hregion, hactivation, hdeclares, ?_⟩
  by_cases hnever : (name.lexeme, true) ∈ scope
  · exact Or.inl (hbinds hnever)
  · right
    -- The name is not ready, and that can be only in the innermost scope.
    have hunready : scope.lookup name.lexeme = some false := by
      cases ready with
      | false => exact hlookup
      | true => exact absurd (Scope.mem_of_lookup hlookup) hnever
    cases d with
    | zero =>
      have hhead : scope ∈ scopes.head? := by rw [List.head?_eq_getElem?, hscope]; rfl
      have hregion' : region ∈ regions.head? := by rw [List.head?_eq_getElem?, hregion]; rfl
      exact ⟨rfl, h.initializes _ hself scope hhead _ hunready hnever region hregion'⟩
    | succ d =>
      have htail : scope ∈ scopes.tail := by
        rw [← List.getElem?_tail] at hscope
        exact List.mem_of_getElem? hscope
      exact absurd hunready (h.settled scope htail name.lexeme)

/-- No hop count that was found for an expression leads beyond the globals. -/
theorem Program.HasExpr.hops_lt {c : Context} {m : Machine} {e : Expr}
    (h : p.HasExpr regions scopes e) (hp : p ∈ ps) (hs : m.Sound ps c)
    (hr : Realises c m.store m.globals regions scopes m.scope) {id : NodeId} {name : Token}
    (he : e.mention? = some (id, name)) {d : Nat} (hd : m.hops[id]? = some d) :
    d < (m.store.chain m.scope).length := by
  obtain ⟨hid, hhops⟩ := h.recorded he
  rw [hs.hops p hp id hid, hhops] at hd
  obtain ⟨frames, hchain, hframes⟩ := hr.chain hs.nested hs.globals_lt hs.outermost
  have hlen := congrArg List.length hframes
  rw [List.length_map, List.length_map, hr.length_eq] at hlen
  rw [hchain, List.length_append, hlen]
  exact Nat.lt_add_right _ (Scope.hops_lt hd)

/-- Bodies of functions run safely in frames opened for them. -/
def RunsBodies (ps : List Program) (run : Policy → Region → Run Flow) : Prop :=
  ∀ c m p r regions scopes, p ∈ ps → m.Sound ps c → (Event.entry r).Fits m →
    Realises c m.store m.globals (r :: regions) (Region.scopes r.params scopes) m.scope →
    p.HasBody (r :: regions) true (Region.scopes r.params scopes) r.body →
    Safe ps c m (fun policy => run policy r)
      fun c' m' flow => flow.result.Placed ps c' m'.store m'.globals

section Evaluation

variable {run : Policy → Region → Run Flow} {c : Context} {m : Machine}

/-- A frame that binds the parameters of a function realises the place of its body. -/
theorem Realises.called (r : Region) (arguments : List Value) {frame : FrameId}
    (h : Realises c m.store m.globals regions scopes frame)
    (hlen : arguments.length = r.params.length) :
    Realises (c.extend m.store.nextFrame (r :: regions))
      (m.opened (.ofArguments r.params arguments) frame).store m.globals (r :: regions)
      (Region.scopes r.params scopes) m.store.nextFrame := by
  have hlater := Store.Later.allocate m.store (.ofArguments r.params arguments) (some frame)
  have hagree := c.agree_extend m.store (r :: regions)
  have hparam {name : String} {ready : Bool}
      (hn : (name, ready) ∈ r.params.reverse.map fun t => (t.lexeme, true)) :
      ∃ t ∈ r.params, t.lexeme = name := by
    obtain ⟨t, ht, heq⟩ := List.mem_map.mp hn
    cases heq
    exact ⟨t, List.mem_reverse.mp ht, rfl⟩
  rw [Region.scopes_eq]
  refine .frame (if_pos rfl) Store.enclosing?_allocate_self (fun name hn => ?_)
    (fun name ready hn => ?_) (h.later hlater hagree)
  · obtain ⟨t, ht, rfl⟩ := hparam hn
    rw [Store.binds, Machine.opened, Store.get?_allocate_self]
    exact Bindings.isSome_lookup_ofArguments hlen ht
  · obtain ⟨t, ht, rfl⟩ := hparam (Scope.mem_of_lookup hn)
    exact ⟨t, List.mem_append_left _ ht, rfl⟩

/-- A frame opened for a region binds its parameters to arguments, and nothing else. -/
theorem Machine.opened_fits (m : Machine) (r : Region) (arguments : List Value) (frame : FrameId)
    (hlen : arguments.length = r.params.length) :
    (Event.entry r).Fits (m.opened (.ofArguments r.params arguments) frame) := by
  refine ⟨arguments, hlen, ?_⟩
  simp only [Machine.opened, Store.allocate, Store.nextFrame, Array.getElem?_push_size,
    Option.map_some]

/-- A call binds only what the region of the function declares. -/
theorem Region.declares_ofArguments {r : Region} {arguments : List Value} {name : String}
    (h : ((Bindings.ofArguments r.params arguments).lookup name).isSome = true) :
    r.Declares name := by
  obtain ⟨v, hv⟩ := Option.isSome_iff_exists.mp h
  obtain ⟨t, ht, hname⟩ := (Bindings.mem_of_lookup_ofArguments hv).2
  exact ⟨t, List.mem_append_left _ ht, hname⟩

theorem Value.call_safe (hrun : RunsBodies ps run) {paren : Token} {arguments : List Value}
    {f : Value} (hs : m.Sound ps c) (hf : f.Placed ps c m.store m.globals)
    (harguments : ∀ v ∈ arguments, v.Placed ps c m.store m.globals) :
    Safe ps c m (fun policy => f.call (run policy) paren arguments)
      fun c' m' v => v.Placed ps c' m'.store m'.globals := by
  cases f with
  | literal _ => exact Safe.fail hs
  | host f =>
    simp only [Value.call]
    refine Safe.ite (Safe.fail hs) ?_
    cases f.body (arguments.map Value.view) with
    | failure message => exact Safe.fail hs
    | literal l => exact Safe.pure hs trivial
    | argument i => exact Safe.pure hs (harguments _ (List.get_mem ..))
    | function name arity body => exact Safe.makeHost hs
  | closure f =>
    obtain ⟨p, hp, regions, scopes, hr, hbody, -⟩ := hf
    simp only [Value.call]
    by_cases hlen : arguments.length = f.params.length
    · simp only [ne_eq, hlen, not_true_eq_false, ↓reduceIte]
      have hlt := hs.lt_nextFrame hr
      have hbindings : ∀ name v, (Bindings.ofArguments f.params arguments).lookup name = some v →
          v.Placed ps c m.store m.globals := fun name v hv =>
        harguments v (Bindings.mem_of_lookup_ofArguments hv).1
      have hopened := hs.opened hlt hbindings (⟨f.params, f.body⟩ :: regions)
        fun r hr name hname => by
          cases hr
          exact Region.declares_ofArguments hname
      have hin := hrun _ _ p ⟨f.params, f.body⟩ regions scopes hp hopened
        (m.opened_fits ⟨f.params, f.body⟩ arguments f.frame hlen)
        (hr.called ⟨f.params, f.body⟩ arguments hlen) hbody
      refine Safe.bind (Safe.inNewFrame (⟨f.params, f.body⟩ :: regions)
        (fun c store globals flow => Value.Placed ps c store globals flow.result) hin)
        fun c' m' flow _ _ hs' hflow => ?_
      exact Safe.pure hs' hflow
    · simp only [ne_eq, hlen, not_false_eq_true, ↓reduceIte]
      exact Safe.fail hs

mutual

theorem Expr.eval_safe (hrun : RunsBodies ps run) {c : Context} {m : Machine} {e : Expr}
    (hp : p ∈ ps) (h : p.HasExpr regions scopes e) (hs : m.Sound ps c)
    (hr : Realises c m.store m.globals regions scopes m.scope) :
    Safe ps c m (fun policy => e.eval policy (run policy))
      fun c' m' v => v.Placed ps c' m'.store m'.globals := by
  have hobserve := Safe.observe hs (fun cf hcf => h.holds hp hs hr hcf)
    fun id name he d hd => h.hops_lt hp hs hr he hd
  match e with
  | .literal value =>
    simp only [Expr.eval]
    exact hobserve.bind fun c' m' _ _ _ hs' _ => Safe.pure hs' trivial
  | .grouping inner =>
    simp only [Expr.eval]
    refine hobserve.bind fun c' m' _ hagree hlater hs' _ => ?_
    exact inner.eval_safe hrun hp h.of_grouping hs' (hlater.realises hr hagree)
  | .unary operator right =>
    simp only [Expr.eval]
    refine hobserve.bind fun c₁ m₁ _ hagree hlater hs₁ _ => ?_
    have hright := right.eval_safe hrun hp h.of_unary hs₁ (hlater.realises hr hagree)
    refine hright.bind fun c₂ m₂ v _ _ hs₂ _ => ?_
    refine Safe.ofOperation hs₂ fun w hw => ?_
    obtain ⟨l, rfl⟩ := Operation.unary_literal hw
    trivial
  | .binary left operator right =>
    simp only [Expr.eval]
    refine hobserve.bind fun c₁ m₁ _ hagree hlater hs₁ _ => ?_
    have hr₁ := hlater.realises hr hagree
    refine (left.eval_safe hrun hp h.of_binary.1 hs₁ hr₁).bind fun c₂ m₂ v hagree hlater hs₂ _ => ?_
    have hr₂ := hlater.realises hr₁ hagree
    refine (right.eval_safe hrun hp h.of_binary.2 hs₂ hr₂).bind fun c₃ m₃ w _ _ hs₃ _ => ?_
    refine Safe.ofOperation hs₃ fun u hu => ?_
    obtain ⟨l, rfl⟩ := Operation.binary_literal hu
    trivial
  | .logical left operator right =>
    simp only [Expr.eval]
    refine hobserve.bind fun c₁ m₁ _ hagree hlater hs₁ _ => ?_
    have hr₁ := hlater.realises hr hagree
    refine (left.eval_safe hrun hp h.of_logical.1 hs₁ hr₁).bind
      fun c₂ m₂ v hagree hlater hs₂ hv => ?_
    refine Safe.ite (Safe.pure hs₂ hv) ?_
    exact right.eval_safe hrun hp h.of_logical.2 hs₂ (hlater.realises hr₁ hagree)
  | .var id name =>
    simp only [Expr.eval]
    exact hobserve.bind fun c' m' _ _ _ hs' _ => Safe.read hs'
  | .assign id name value =>
    simp only [Expr.eval]
    refine hobserve.bind fun c₁ m₁ _ hagree hlater hs₁ _ => ?_
    have hr₁ := hlater.realises hr hagree
    have hvalue := value.eval_safe hrun hp h.of_assign hs₁ hr₁
    refine hvalue.bind fun c₂ m₂ v hagree hlater hs₂ hv => ?_
    have hwrite (cf : Context) (hcf : c₂.Agree m₂.store cf) :=
      h.write_holds hp hs₂ (hlater.realises hr₁ hagree) v hcf
    have hfits : Write.Fits m₂ ⟨id, name, v⟩ := fun d hd =>
      h.hops_lt hp hs₂ (hlater.realises hr₁ hagree) rfl hd
    refine (Safe.write hs₂ hv hwrite hfits).bind fun c₃ m₃ _ hagree hlater hs₃ _ => ?_
    exact Safe.pure hs₃ (hlater.placed hv hagree)
  | .call callee paren arguments =>
    simp only [Expr.eval]
    refine hobserve.bind fun c₁ m₁ _ hagree hlater hs₁ _ => ?_
    have hr₁ := hlater.realises hr hagree
    refine (callee.eval_safe hrun hp h.of_call.1 hs₁ hr₁).bind
      fun c₂ m₂ f hagree hlater hs₂ hf => ?_
    have hr₂ := hlater.realises hr₁ hagree
    refine (Expr.evalAll_safe hrun hp h.of_call.2 hs₂ hr₂).bind
      fun c₃ m₃ vs hagree hlater hs₃ hvs => ?_
    exact Value.call_safe hrun hs₃ (hlater.placed hf hagree) hvs

theorem Expr.evalAll_safe (hrun : RunsBodies ps run) {c : Context} {m : Machine} {es : List Expr}
    (hp : p ∈ ps) (h : p.HasExprs regions scopes es) (hs : m.Sound ps c)
    (hr : Realises c m.store m.globals regions scopes m.scope) :
    Safe ps c m (fun policy => Expr.evalAll policy (run policy) es)
      fun c' m' vs => ∀ v ∈ vs, v.Placed ps c' m'.store m'.globals := by
  match es with
  | [] =>
    simp only [Expr.evalAll]
    exact Safe.pure hs fun v hv => by cases hv
  | e :: es =>
    simp only [Expr.evalAll]
    refine (e.eval_safe hrun hp h.of_cons.1 hs hr).bind fun c₁ m₁ v hagree hlater hs₁ hv => ?_
    have hr₁ := hlater.realises hr hagree
    refine (Expr.evalAll_safe hrun hp h.of_cons.2 hs₁ hr₁).bind
      fun c₂ m₂ vs hagree hlater hs₂ hvs => ?_
    refine Safe.pure hs₂ fun w hw => ?_
    rcases List.mem_cons.mp hw with rfl | hw
    · exact hlater.placed hv hagree
    · exact hvs w hw

end

theorem Expr.evalOption_safe (hrun : RunsBodies ps run) {e : Option Expr} (hp : p ∈ ps)
    (h : ∀ e' ∈ e, p.HasExpr regions scopes e') (hs : m.Sound ps c)
    (hr : Realises c m.store m.globals regions scopes m.scope) :
    Safe ps c m (fun policy => Expr.evalOption policy (run policy) e)
      fun c' m' v => v.Placed ps c' m'.store m'.globals := by
  cases e with
  | none => exact Safe.pure hs trivial
  | some e => exact e.eval_safe hrun hp (h e rfl) hs hr

end Evaluation

section Execution

variable {run : Policy → Region → Run Flow}

/-- When a part of a program is entered, the current frame is its activation. -/
theorem Machine.Sound.entry {c : Context} {m : Machine} {r : Region} (hs : m.Sound ps c)
    (hfits : (Event.entry r).Fits m)
    (hr : Realises c m.store m.globals (r :: regions) scopes m.scope) :
    Safe ps c m (fun policy => policy.observe (.entry r)) fun _ _ _ => True := by
  refine Safe.observe hs (fun cf hcf => ?_) hfits
  cases hr.later (.refl m.store) hcf with
  | frame hc =>
    change (cf m.scope).head? = some r
    rw [hc]
    rfl

/-- A declaration binds its name in the innermost scope, where the name is ready from then on. -/
theorem Machine.Sound.declared {c : Context} {m : Machine} {name : Token} {v : Value}
    (hs : m.Sound ps c) (hr : Realises c m.store m.globals regions scopes m.scope)
    (hdeclares : ∀ r ∈ regions.head?, r.Declares name.lexeme)
    (hv : v.Placed ps c (m.store.define m.scope name.lexeme v) m.globals) :
    Safe ps c m (fun _ => do Run.define name v; return .normal) fun c' m' (flow : Flow) =>
      flow.result.Placed ps c' m'.store m'.globals ∧
        (flow = .normal → Realises c' m'.store m'.globals regions
          (Scope.note name true scopes) m'.scope) := by
  have hname : ∀ r ∈ (c m.scope).head?, r.Declares name.lexeme := by
    rw [hr.context hs.globals_nil]
    exact hdeclares
  refine (Safe.define hs (hs.lt_nextFrame hr) hv hname).bind
    fun c' m' _ hagree hlater hs' hbinds => ?_
  have hr' := hlater.realises hr hagree
  exact Safe.pure hs' ⟨trivial, fun _ => hr'.note_ready hdeclares hbinds⟩

/-- A block is a region without parameters, so it runs in a frame that binds nothing yet. -/
theorem Machine.Sound.inBlock {c : Context} {m : Machine} {body : List Stmt}
    {action : Policy → Run Flow} (hs : m.Sound ps c)
    (hr : Realises c m.store m.globals regions scopes m.scope)
    (haction : ∀ c' m', m'.Sound ps c' →
      Realises c' m'.store m'.globals (⟨[], body⟩ :: regions) (Region.scopes [] scopes) m'.scope →
      Safe ps c' m' action fun c' m' flow => flow.result.Placed ps c' m'.store m'.globals) :
    Safe ps c m (fun policy => Run.inNewFrame [] m.scope do
        policy.observe (.entry ⟨[], body⟩)
        action policy)
      fun c' m' flow => flow.result.Placed ps c' m'.store m'.globals := by
  have hr' := hr.called ⟨[], body⟩ [] rfl
  have hbindings : ∀ name v, ([] : Bindings).lookup name = some v →
      v.Placed ps c m.store m.globals := fun name v hv => by cases hv
  have hopened := hs.opened (hs.lt_nextFrame hr) hbindings (⟨[], body⟩ :: regions)
    fun _ _ _ hlookup => by cases hlookup
  refine Safe.inNewFrame (⟨[], body⟩ :: regions)
    (fun c store globals (flow : Flow) => flow.result.Placed ps c store globals) ?_
  have hfits := m.opened_fits ⟨[], body⟩ [] m.scope rfl
  refine (hopened.entry hfits hr').bind fun c₁ m₁ _ hagree hlater hs₁ _ => ?_
  exact haction c₁ m₁ hs₁ (hlater.realises hr' hagree)

/-- By induction on the rounds, each of which leaves the place of the loop realised. -/
theorem Run.iterate_safe {step : Policy → Run (Option Flow)}
    (hstep : ∀ c m, m.Sound ps c → Realises c m.store m.globals regions scopes m.scope →
      Safe ps c m step fun c' m' o => ∀ flow ∈ o, flow.result.Placed ps c' m'.store m'.globals)
    (limit : Nat) {c : Context} {m : Machine} (hs : m.Sound ps c)
    (hr : Realises c m.store m.globals regions scopes m.scope) :
    Safe ps c m (fun policy => Run.iterate (step policy) limit)
      fun c' m' flow => flow.result.Placed ps c' m'.store m'.globals := by
  induction limit generalizing c m with
  | zero => exact Safe.throw hs
  | succ limit ih =>
    simp only [Run.iterate_succ]
    refine (hstep c m hs hr).bind fun c' m' o hagree hlater hs' ho => ?_
    cases o with
    | none => exact Safe.pure hs' trivial
    | some flow =>
      cases flow with
      | normal => exact ih hs' (hlater.realises hr hagree)
      | returned v => exact Safe.pure hs' (ho (.returned v) rfl)

mutual

/-- A statement leaves the scopes realised as they are after it, unless it is left for good. -/
theorem Stmt.exec_safe (hrun : RunsBodies ps run) (limit : Nat) {inFunction : Bool}
    {regions : List Region} {scopes : List Scope} {c : Context} {m : Machine} {s : Stmt}
    (hp : p ∈ ps) (h : p.HasStmt regions inFunction scopes s) (hs : m.Sound ps c)
    (hr : Realises c m.store m.globals regions scopes m.scope) :
    Safe ps c m (fun policy => s.exec policy limit (run policy)) fun c' m' flow =>
      flow.result.Placed ps c' m'.store m'.globals ∧
        (flow = .normal → Realises c' m'.store m'.globals regions
          (s.findings inFunction scopes).1 m'.scope) := by
  have hkeep (hd : s.isDeclaration = false)
      (hsafe : Safe ps c m (fun policy => s.exec policy limit (run policy))
        fun c' m' flow => flow.result.Placed ps c' m'.store m'.globals) :
      Safe ps c m (fun policy => s.exec policy limit (run policy)) fun c' m' flow =>
        flow.result.Placed ps c' m'.store m'.globals ∧
          (flow = .normal → Realises c' m'.store m'.globals regions
            (s.findings inFunction scopes).1 m'.scope) := by
    refine hsafe.mono fun c' m' flow hagree hlater _ hflow => ⟨hflow, fun _ => ?_⟩
    rw [Stmt.scopes_findings hd h.regular]
    exact hlater.realises hr hagree
  match s with
  | .expression e =>
    refine hkeep rfl ?_
    simp only [Stmt.exec]
    refine (e.eval_safe hrun hp h.of_expression hs hr).discard.bind fun c₁ m₁ _ _ _ hs₁ _ => ?_
    exact Safe.pure hs₁ trivial
  | .print e =>
    refine hkeep rfl ?_
    simp only [Stmt.exec]
    refine (e.eval_safe hrun hp h.of_print hs hr).bind fun c₁ m₁ v _ _ hs₁ _ => ?_
    exact (Safe.print hs₁).bind fun c₂ m₂ _ _ _ hs₂ _ => Safe.pure hs₂ trivial
  | .declare name initializer =>
    simp only [Stmt.exec]
    have hdeclares := h.declared name rfl
    -- The initializer is evaluated while the name is declared and not ready.
    refine (Expr.evalOption_safe hrun hp ?_ hs (hr.note_unready hdeclares)).bind
      fun c₁ m₁ v hagree₁ hlater₁ hs₁ hv => ?_
    · rintro e rfl
      exact h.of_declare
    have hr₁ := hlater₁.realises (hr.note_unready hdeclares) hagree₁
    have hplaced := hv.later (.define m₁.store m₁.scope name.lexeme v) .refl
    exact hs₁.declared hr₁ hdeclares hplaced
  | .block body =>
    refine hkeep rfl ?_
    simp only [Stmt.exec]
    have hget : Safe ps c m (fun _ => get) fun _ m' a => a = m' := Safe.get hs rfl
    refine hget.bind fun c₁ _ m₁ hagree hlater hs₁ hm => ?_
    subst hm
    refine hs₁.inBlock (hlater.realises hr hagree) fun c₂ m₂ hs₂ hr₂ => ?_
    exact Stmt.execAll_safe hrun limit hp h.of_block hs₂ hr₂
  | .ifThen condition thenBranch =>
    refine hkeep rfl ?_
    simp only [Stmt.exec]
    refine (condition.eval_safe hrun hp h.of_ifThen.1 hs hr).bind
      fun c₁ m₁ v hagree hlater hs₁ _ => ?_
    refine Safe.ite ?_ (Safe.pure hs₁ trivial)
    have hthen := thenBranch.exec_safe hrun limit hp h.of_ifThen.2 hs₁ (hlater.realises hr hagree)
    exact hthen.mono fun _ _ _ _ _ _ hflow => hflow.1
  | .ifElse condition thenBranch elseBranch =>
    refine hkeep rfl ?_
    simp only [Stmt.exec]
    refine (condition.eval_safe hrun hp h.of_ifElse.1 hs hr).bind
      fun c₁ m₁ v hagree hlater hs₁ _ => ?_
    have hr₁ := hlater.realises hr hagree
    have hthen := thenBranch.exec_safe hrun limit hp h.of_ifElse.2.1 hs₁ hr₁
    have helse := elseBranch.exec_safe hrun limit hp h.of_ifElse.2.2 hs₁ hr₁
    exact Safe.ite (hthen.mono fun _ _ _ _ _ _ hflow => hflow.1)
      (helse.mono fun _ _ _ _ _ _ hflow => hflow.1)
  | .whileLoop condition body =>
    refine hkeep rfl ?_
    simp only [Stmt.exec]
    refine Run.iterate_safe (fun c m hs hr => ?_) limit hs hr
    refine (condition.eval_safe hrun hp h.of_whileLoop.1 hs hr).bind
      fun c₁ m₁ v hagree hlater hs₁ _ => ?_
    refine Safe.ite ?_ (Safe.pure hs₁ fun flow hf => by cases hf)
    have hbody := body.exec_safe hrun limit hp h.of_whileLoop.2 hs₁ (hlater.realises hr hagree)
    refine hbody.bind fun c₂ m₂ flow _ _ hs₂ hflow => Safe.pure hs₂ fun flow' hf => ?_
    cases hf
    exact hflow.1
  | .function name params body =>
    simp only [Stmt.exec]
    have hdeclares := h.declared name rfl
    refine (Safe.makeClosure hs).bind fun c₁ m₁ v hagree₁ hlater₁ hs₁ hv => ?_
    obtain ⟨identity, rfl⟩ := hv
    have hr₁ := hlater₁.realises hr hagree₁
    have hlt := hs₁.lt_nextFrame hr₁
    -- The closure sees its own name once the name is bound.
    have hplaced : (Value.closure ⟨identity, name, params, body, m₁.scope⟩).Placed ps c₁
        (m₁.store.define m₁.scope name.lexeme
          (.closure ⟨identity, name, params, body, m₁.scope⟩)) m₁.globals := by
      refine ⟨p, hp, regions, Scope.note name true scopes, ?_, h.of_function,
        h.places _ List.mem_cons_self⟩
      refine (hr₁.later (.define ..) .refl).note_ready hdeclares ?_
      rw [Store.binds, Store.get?_define_self hlt]
      rfl
    exact hs₁.declared hr₁ hdeclares hplaced
  | .returnFrom keyword value =>
    refine hkeep rfl ?_
    simp only [Stmt.exec]
    refine (Expr.evalOption_safe hrun hp ?_ hs hr).bind fun c₁ m₁ v _ _ hs₁ hv => ?_
    · rintro e rfl
      exact h.of_returnFrom
    · exact Safe.pure hs₁ hv

theorem Stmt.execAll_safe (hrun : RunsBodies ps run) (limit : Nat) {inFunction : Bool}
    {regions : List Region} {scopes : List Scope} {c : Context} {m : Machine} {ss : List Stmt}
    (hp : p ∈ ps) (h : p.HasBody regions inFunction scopes ss) (hs : m.Sound ps c)
    (hr : Realises c m.store m.globals regions scopes m.scope) :
    Safe ps c m (fun policy => Stmt.execAll policy limit (run policy) ss) fun c' m' flow =>
      flow.result.Placed ps c' m'.store m'.globals := by
  match ss with
  | [] =>
    simp only [Stmt.execAll]
    exact Safe.pure hs trivial
  | s :: ss =>
    simp only [Stmt.execAll]
    refine (s.exec_safe hrun limit hp h.of_cons.1 hs hr).bind
      fun c₁ m₁ flow hagree hlater hs₁ hflow => ?_
    cases flow with
    | normal => exact Stmt.execAll_safe hrun limit hp h.of_cons.2 hs₁ (hflow.2 rfl)
    | returned v => exact Safe.pure hs₁ hflow.1

end

/-- By induction on the fuel, which calls inside calls use up. -/
theorem runBody_safe (fuel : Nat) : RunsBodies ps fun policy => runBody policy fuel := by
  induction fuel with
  | zero =>
    intro c m p r regions scopes _ hs _ _ _
    exact Safe.throw hs
  | succ fuel ih =>
    intro c m p r regions scopes hp hs hfits hr h
    simp only [runBody]
    refine (hs.entry hfits hr).bind fun c₁ m₁ _ hagree hlater hs₁ _ => ?_
    exact Stmt.execAll_safe ih fuel hp h hs₁ (hlater.realises hr hagree)

/-- The statements of a whole program run in the globals, where no scope keeps names. -/
theorem Run.executeEach_safe (fuel : Nat) {c : Context} {m : Machine} {ss : List Stmt}
    (hp : p ∈ ps) (h : p.HasBody [] false [] ss) (hs : m.Sound ps c)
    (hscope : m.scope = m.globals) :
    Safe ps c m (fun policy => Run.executeEach policy fuel ss) fun _ _ _ => True := by
  induction ss generalizing c m with
  | nil => exact Safe.pure hs trivial
  | cons s ss ih =>
    simp only [Run.executeEach]
    have hr : Realises c m.store m.globals [] [] m.scope := hscope ▸ .globals
    have hexec := s.exec_safe (runBody_safe fuel) fuel hp h.of_cons.1 hs hr
    refine hexec.discard.bind fun c₁ m₁ _ _ hlater hs₁ _ => ih ?_ hs₁ ?_
    · have hrest := h.of_cons.2
      rwa [Stmt.scopes_findings_nil] at hrest
    · rw [hlater.scope, hlater.globals, hscope]

theorem Run.interpret_safe (fuel : Nat) {c : Context} {m : Machine} (hp : p ∈ ps)
    (h : p.HasBody [] false [] p.statements) (hs : m.Sound ps c) (hscope : m.scope = m.globals) :
    Safe ps c m (fun policy => Run.interpret policy fuel p.statements) fun _ _ _ => True := by
  simp only [Run.interpret]
  exact (Run.executeEach_safe fuel hp h hs hscope).bind fun _ _ _ _ _ hs' _ => Safe.flush hs'

end Execution

end TreeWalk
