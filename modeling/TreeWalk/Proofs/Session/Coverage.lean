import TreeWalk.Proofs.Grammar.Operators
import TreeWalk.Proofs.Session.WriteSoundness

/-! Sessions never come to the cases that the machine has for trees no source text is read as, for
hop counts that lead beyond the globals, or for bodies entered with the wrong number of
arguments. -/

namespace TreeWalk

variable {ps : List Program} {c : Context} {m : Machine}

/-- A chain that is long enough has a frame so many steps outward. -/
theorem Store.ancestor?_of_lt_chainUpTo {store : Store} {limit d : Nat} {frame : FrameId}
    (h : d < (store.chainUpTo limit frame).length) : ∃ f, store.ancestor? frame d = some f := by
  induction limit generalizing frame d with
  | zero => cases h
  | succ limit ih =>
    cases d with
    | zero => exact ⟨frame, rfl⟩
    | succ d =>
      rw [chainUpTo, List.length_cons, Nat.succ_lt_succ_iff] at h
      cases houter : store.enclosing? frame with
      | none =>
        rw [houter] at h
        cases h
      | some outer =>
        rw [houter] at h
        obtain ⟨f, hf⟩ := ih h
        exact ⟨f, by rw [ancestor?, houter]; exact hf⟩

theorem Store.ancestor?_of_lt_chain {store : Store} {frame : FrameId} {d : Nat}
    (h : d < (store.chain frame).length) : ∃ f, store.ancestor? frame d = some f :=
  ancestor?_of_lt_chainUpTo h

/-- With a listed operator the machine takes for a conjunction only what is one. -/
theorem Operation.settles_of_mem {operator : Token} (h : operator.kind ∈ logicalKinds) (v : Value) :
    settles operator v =
      if operator.kind = .keyword .and_ then !v.truthy else v.truthy := by
  simp only [logicalKinds, List.mem_cons, List.not_mem_nil, or_false] at h
  unfold settles
  rcases h with h | h
  · have hor : operator.isKeyword .or_ = false := Token.isKeyword_eq_false (by rw [h]; decide)
    rw [hor, if_pos h]
    rfl
  · have hor : operator.isKeyword .or_ = true := Token.isKeyword_iff.mpr h
    have hand : operator.kind ≠ .keyword .and_ := by rw [h]; decide
    rw [if_pos hor, if_neg hand]

/-- What the evaluation of an expression relies on without a check of its own. -/
structure Expr.Covered (e : Expr) (m : Machine) : Prop where
  unary : ∀ operator right, e = .unary operator right →
    operator.kind ∈ Operation.unaryKinds ∧
      ∀ v, Operation.unary operator.kind v ≠ .error .invalidUnaryOperator
  binary : ∀ left operator right, e = .binary left operator right →
    operator.kind ∈ Operation.binaryKinds ∧
      ∀ v w, Operation.binary operator.kind v w ≠ .error .invalidBinaryOperator
  logical : ∀ left operator right, e = .logical left operator right →
    operator.kind ∈ Operation.logicalKinds ∧
      ∀ v, Operation.settles operator v =
        if operator.kind = .keyword .and_ then !v.truthy else v.truthy
  hops : ∀ id name, e.mention? = some (id, name) → ∀ d, m.hops[id]? = some d →
    d < (m.store.chain m.scope).length ∧ ∃ frame, m.store.ancestor? m.scope d = some frame

/-- What the body of a function relies on: the frame it is entered in was made from as many
arguments as there are parameters, so that every parameter is bound. -/
structure Region.Covered (r : Region) (m : Machine) : Prop where
  arguments : ∃ arguments : List Value, arguments.length = r.params.length ∧
    m.store.frames[m.scope]?.map Frame.bindings = some (.ofArguments r.params arguments)
  bound : ∀ t ∈ r.params, m.store.binds t.lexeme m.scope = true

theorem Expr.covered_of_fits {e : Expr} (hoperator : e.OperatorFits)
    (hfits : (Event.evaluation e).Fits m) : e.Covered m := by
  constructor
  · rintro operator right rfl
    exact ⟨hoperator, fun v => Operation.unary_ne_invalid_iff.mpr hoperator⟩
  · rintro left operator right rfl
    exact ⟨hoperator, fun v w => Operation.binary_ne_invalid_iff.mpr hoperator⟩
  · rintro left operator right rfl
    exact ⟨hoperator, Operation.settles_of_mem hoperator⟩
  · intro id name he d hd
    have hlt := hfits id name he d hd
    exact ⟨hlt, Store.ancestor?_of_lt_chain hlt⟩

theorem Region.covered_of_fits {r : Region} (hfits : (Event.entry r).Fits m) : r.Covered m := by
  obtain ⟨arguments, hlen, hbindings⟩ := hfits
  refine ⟨⟨arguments, hlen, hbindings⟩, fun t ht => ?_⟩
  obtain ⟨frame, hframe, hsame⟩ := Option.map_eq_some_iff.mp hbindings
  have hget : m.store.get? m.scope t.lexeme =
      (Bindings.ofArguments r.params arguments).lookup t.lexeme := by
    rw [Store.get?, hframe, Option.bind_some, Frame.get?, hsame]
  rw [Store.binds, hget]
  exact Bindings.isSome_lookup_ofArguments hlen ht

/-- A policy that stops only at an event that does not fit goes unnoticed. -/
theorem Policy.stoppingAt_watches_of_not_fits {event : Event} {d : Diagnostic}
    (h : ¬ event.Fits m) : (Policy.stoppingAt event m d).Watches ps c where
  read := rfl
  write _ _ _ _ := rfl
  observe event' m' _ hfits := by
    refine if_neg fun hsame => h ?_
    rwa [hsame.1, hsame.2] at hfits

theorem Policy.refusing_watches_of_not_fits {w : Write} {d : Diagnostic} (h : ¬ w.Fits m) :
    (Policy.refusing w m d).Watches ps c where
  read := rfl
  write w' m' _ hfits := by
    refine if_neg fun hsame => h ?_
    obtain ⟨rfl, rfl⟩ := hsame
    exact hfits
  observe _ _ _ _ := rfl

namespace Session

theorem fits_of_happens {fuel : Nat} {sink : Sink} {steps : List Step} {event : Event}
    (h : (initial sink).Happens fuel steps event m) : event.Fits m := by
  obtain ⟨c, hkeeps⟩ := (initial_sound sink).steps fuel steps
  obtain ⟨d, hd⟩ := h
  refine Classical.byContradiction fun hfails => hd ?_
  exact hkeeps.watched c _ .refl (Policy.stoppingAt_watches_of_not_fits hfails)

theorem fits_of_writes {fuel : Nat} {sink : Sink} {steps : List Step} {w : Write}
    (h : (initial sink).Writes fuel steps w m) : w.Fits m := by
  obtain ⟨c, hkeeps⟩ := (initial_sound sink).steps fuel steps
  obtain ⟨d, hd⟩ := h
  refine Classical.byContradiction fun hfails => hd ?_
  exact hkeeps.watched c _ .refl (Policy.refusing_watches_of_not_fits hfails)

/-- Every program that a session accepts was read from a text without errors. -/
theorem exists_source_of_accepted {p : Program} {n : NodeId} {steps : List Step}
    (h : p ∈ accepted n steps) :
    ∃ source n', Program.ofSource source n' = p ∧ p.errors = [] := by
  induction steps generalizing n with
  | nil => cases h
  | cons first rest ih =>
    cases first with
    | defineHost name arity body => exact ih h
    | run source =>
      rw [accepted] at h
      split at h
      · next hnone =>
        rcases List.mem_cons.mp h with rfl | h
        · exact ⟨source, n, rfl, List.isEmpty_iff.mp hnone⟩
        · exact ih h
      · exact ih h

/-- Whatever a session evaluates, also in the body of a function that an earlier text declared, has
an operator that the machine has a case for, and a hop count that stays within the chain of frames;
so has whatever it assigns to. Every body is entered with as many arguments as it has parameters,
and no call with another number of them enters a body. -/
theorem impossible_cases_unreached (fuel : Nat) (sink : Sink) (steps : List Step) :
    (∀ e m, (initial sink).Happens fuel steps (.evaluation e) m → e.Covered m) ∧
    (∀ w m, (initial sink).Writes fuel steps w m → ∀ d, m.hops[w.id]? = some d →
      d < (m.store.chain m.scope).length ∧ ∃ frame, m.store.ancestor? m.scope d = some frame) ∧
    (∀ r m, (initial sink).Happens fuel steps (.entry r) m → r.Covered m) ∧
    ∀ (run : Region → Run Flow) paren arguments (f : Closure),
      arguments.length ≠ f.params.length → Value.call run paren arguments (.closure f) =
        Run.fail paren (.argumentCount f.params.length arguments.length) := by
  obtain ⟨c, hholds⟩ := event_holds fuel sink steps
  refine ⟨fun e m h => ?_, fun w m h d hd => ?_, fun r m h => ?_, fun run paren vs f hlen => ?_⟩
  · obtain ⟨p, hp, regions, -, hsite, -⟩ := hholds _ m h
    obtain ⟨source, n, rfl, hnone⟩ := exists_source_of_accepted hp
    exact Expr.covered_of_fits (Program.operatorFits hnone hsite) (fits_of_happens h)
  · have hlt := fits_of_writes h d hd
    exact ⟨hlt, Store.ancestor?_of_lt_chain hlt⟩
  · exact Region.covered_of_fits (fits_of_happens h)
  · exact if_pos hlen

section Witness

/-- A negation that is a whole program. -/
def negation : String := "!nil;"

def negationStatement : Expr :=
  .unary ⟨.punctuator .bang, "!", 1⟩ (.literal .nil)

theorem negation_tokens : Source.tokens negation =
    [⟨.punctuator .bang, "!", 1⟩, ⟨.keyword .nil_, "nil", 1⟩, ⟨.punctuator .semicolon, ";", 1⟩,
      Token.endMark 1] := rfl

theorem negation_program : Program.ofSource negation 0 =
    { statements := [.expression negationStatement]
      lexicalErrors := []
      syntacticErrors := []
      resolution := ⟨[], []⟩
      nextId := 0 } := by
  rw [Program.ofSource, negation_tokens]
  rfl

theorem negation_happens : (initial .unlimited).Happens 1 [.run negation]
    (.evaluation negationStatement) ((Machine.initial .unlimited).addHops ∅) := by
  refine ⟨.sink .flush, ?_⟩
  have hstop : (Policy.stoppingAt (.evaluation negationStatement)
      ((Machine.initial .unlimited).addHops ∅) (.sink .flush)).observe
        (.evaluation negationStatement) ((Machine.initial .unlimited).addHops ∅) =
      (.error (.failure (.sink .flush)), (Machine.initial .unlimited).addHops ∅) :=
    if_pos ⟨rfl, rfl⟩
  generalize Policy.stoppingAt (.evaluation negationStatement)
    ((Machine.initial .unlimited).addHops ∅) (.sink .flush) = policy at *
  have heval (run : Region → Run Flow) :
      negationStatement.eval policy run ((Machine.initial .unlimited).addHops ∅) =
        (.error (.failure (.sink .flush)), (Machine.initial .unlimited).addHops ∅) := by
    rw [Expr.eval.eq_def, Run.bind_apply, hstop]
  have hfailed : (Run.interpret policy 1 [.expression negationStatement]
      ((Machine.initial .unlimited).addHops ∅)).1 = .error (.failure (.sink .flush)) := by
    simp only [Run.interpret, Run.executeEach, Run.execute, Stmt.exec, Run.discard_eq,
      Run.bind_apply, heval]
  exact stepsUnder_ne_of_failed negation_program rfl hfailed rfl

/-- A function with a parameter, and a call of it. -/
def emptyCall : String := "fun f(a) \x7b\x7d f(nil);"

def emptyCallName : Token := ⟨.identifier, "f", 1⟩

def emptyCallParen : Token := ⟨.punctuator .rightParen, ")", 1⟩

/-- The machine where the body of the function is entered. -/
def beforeBody : Machine where
  store := ((Store.empty.allocate [] none).define 0 "f"
    (.closure ⟨0, emptyCallName, [localName], [], 0⟩)).allocate [("a", .nil)] (some 0)
  scope := 1
  globals := 0
  hops := ∅ ∪ ∅
  sink := .unlimited
  nextIdentity := 1

theorem emptyCall_tokens : Source.tokens emptyCall =
    [⟨.keyword .fun_, "fun", 1⟩, emptyCallName, ⟨.punctuator .leftParen, "(", 1⟩, localName,
      emptyCallParen, ⟨.punctuator .leftBrace, "\x7b", 1⟩, ⟨.punctuator .rightBrace, "\x7d", 1⟩,
      emptyCallName, ⟨.punctuator .leftParen, "(", 1⟩, ⟨.keyword .nil_, "nil", 1⟩, emptyCallParen,
      ⟨.punctuator .semicolon, ";", 1⟩, Token.endMark 1] := rfl

theorem emptyCall_program : Program.ofSource emptyCall 0 =
    { statements := [.function emptyCallName [localName] [],
        .expression (.call (.var 0 emptyCallName) emptyCallParen [.literal .nil])]
      lexicalErrors := []
      syntacticErrors := []
      resolution := ⟨[⟨.read, 0, emptyCallName, none⟩], []⟩
      nextId := 1 } := by
  rw [Program.ofSource, emptyCall_tokens]
  rfl

theorem emptyCall_happens : (initial .unlimited).Happens 1 [.run emptyCall]
    (.entry ⟨[localName], []⟩) beforeBody := by
  refine ⟨.sink .flush, ?_⟩
  have hevaluation (e : Expr) (m : Machine) : (Policy.stoppingAt (.entry ⟨[localName], []⟩)
      beforeBody (.sink .flush)).observe (.evaluation e) m = (.ok (), m) :=
    if_neg fun h => nomatch h.1
  have hentry : (Policy.stoppingAt (.entry ⟨[localName], []⟩) beforeBody
      (.sink .flush)).observe (.entry ⟨[localName], []⟩) beforeBody =
        (.error (.failure (.sink .flush)), beforeBody) :=
    if_pos ⟨rfl, rfl⟩
  have hread : (Policy.stoppingAt (.entry ⟨[localName], []⟩) beforeBody
      (.sink .flush)).read = Policy.resolved.read := rfl
  generalize Policy.stoppingAt (.entry ⟨[localName], []⟩) beforeBody (.sink .flush) = policy at *
  -- The policy matters only at the entry of the body.
  let f : Closure := ⟨0, emptyCallName, [localName], [], 0⟩
  let m₁ : Machine := { beforeBody with
    store := (Store.empty.allocate [] none).define 0 "f" (.closure f), scope := 0 }
  have hbody : runBody policy 1 ⟨[localName], []⟩ beforeBody =
      (.error (.failure (.sink .flush)), beforeBody) := by
    rw [runBody, Run.bind_apply, hentry]
  have hcall : (Value.closure f).call (runBody policy 1) emptyCallParen [.nil] m₁ =
      (.error (.failure (.sink .flush)), { beforeBody with scope := 0 }) := by
    have hframe : Run.inNewFrame [("a", .nil)] 0 (runBody policy 1 ⟨[localName], []⟩) m₁ =
        (.error (.failure (.sink .flush)), { beforeBody with scope := 0 }) :=
      Run.inNewFrame_opened hbody
    change (Run.inNewFrame [("a", .nil)] 0 (runBody policy 1 ⟨[localName], []⟩) >>= _) m₁ = _
    rw [Run.bind_apply, hframe]
  have hcallee : Expr.eval policy (runBody policy 1) (.var 0 emptyCallName) m₁ =
      (.ok (.closure f), m₁) := by
    rw [Expr.eval, Run.bind_apply, hevaluation, hread]
    rfl
  have harguments : Expr.evalAll policy (runBody policy 1) [.literal .nil] m₁ =
      (.ok [.nil], m₁) := by
    simp only [Expr.evalAll, Expr.eval, Run.bind_apply, hevaluation]
    rfl
  have hexpression : Expr.eval policy (runBody policy 1)
      (.call (.var 0 emptyCallName) emptyCallParen [.literal .nil]) m₁ =
        (.error (.failure (.sink .flush)), { beforeBody with scope := 0 }) := by
    rw [Expr.eval]
    simp only [Run.bind_apply, hevaluation, hcallee, harguments, hcall]
  have hdeclared : Run.execute policy 1 (.function emptyCallName [localName] [])
      ((Machine.initial .unlimited).addHops ∅) = (.ok .normal, m₁) := rfl
  have hfailed : (Run.interpret policy 1 [.function emptyCallName [localName] [],
      .expression (.call (.var 0 emptyCallName) emptyCallParen [.literal .nil])]
        ((Machine.initial .unlimited).addHops ∅)).1 = .error (.failure (.sink .flush)) := by
    simp only [Run.interpret, Run.executeEach, Run.discard_eq, Run.bind_apply]
    rw [hdeclared]
    simp only [Run.execute, Stmt.exec, Run.discard_eq, Run.bind_apply, Run.pure_apply, hexpression]
  exact stepsUnder_ne_of_failed emptyCall_program rfl hfailed rfl

theorem impossible_cases_unreached_runs :
    negationStatement.Covered ((Machine.initial .unlimited).addHops ∅) ∧
    (∃ d, beforeLocalWrite.hops[1]? = some d ∧
      d < (beforeLocalWrite.store.chain beforeLocalWrite.scope).length) ∧
    (Region.mk [localName] []).Covered beforeBody ∧
    Value.call (fun _ => pure .normal) emptyCallParen []
      (.closure ⟨0, emptyCallName, [localName], [], 0⟩) =
      Run.fail emptyCallParen (.argumentCount 1 0) := by
  have hread := (impossible_cases_unreached 1 .unlimited [.run negation]).1
  have hwrite := (impossible_cases_unreached 1 .unlimited [.run localWrite]).2.1
  obtain ⟨-, -, hentry, hcall⟩ := impossible_cases_unreached 1 .unlimited [.run emptyCall]
  refine ⟨hread _ _ negation_happens, ⟨0, rfl, ?_⟩, hentry _ _ emptyCall_happens,
    hcall _ emptyCallParen [] ⟨0, emptyCallName, [localName], [], 0⟩ (by decide)⟩
  exact (hwrite _ _ localWrite_writes 0 rfl).1

end Witness

end Session

end TreeWalk
