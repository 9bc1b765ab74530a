import TreeWalk.Proofs.Machine.HopSoundness
import TreeWalk.Proofs.Program.Accepted
import TreeWalk.Session

/-! A session stays sound from step to step: the functions it keeps belong to programs it accepted
before, and hop counts of a further program do not touch those it has. So whatever a session comes
upon, in whichever step, holds. -/

namespace TreeWalk

variable {ps ps' : List Program} {c c' : Context} {m : Machine}

section Inclusion

theorem Value.Placed.mono {store : Store} {globals : FrameId} {v : Value} (hsub : ps ⊆ ps')
    (h : v.Placed ps c store globals) : v.Placed ps' c store globals := by
  cases v with
  | literal _ => trivial
  | host _ => trivial
  | closure f =>
    obtain ⟨p, hp, hplaced⟩ := h
    exact ⟨p, hsub hp, hplaced⟩

theorem Event.Holds.mono {event : Event} (hsub : ps ⊆ ps') (h : event.Holds ps c m) :
    event.Holds ps' c m := by
  cases event with
  | entry r => exact h
  | evaluation e =>
    obtain ⟨p, hp, hholds⟩ := h
    exact ⟨p, hsub hp, hholds⟩

theorem Write.Holds.mono {w : Write} (hsub : ps ⊆ ps') (h : Write.Holds ps c m w) :
    Write.Holds ps' c m w := by
  obtain ⟨p, hp, hholds⟩ := h
  exact ⟨p, hsub hp, hholds⟩

/-- It takes more to watch for more programs. -/
theorem Policy.Watches.anti {policy : Policy} (hsub : ps ⊆ ps') (h : policy.Watches ps' c) :
    policy.Watches ps c :=
  ⟨h.read, fun w m hw hfits => h.write w m (hw.mono hsub) hfits,
    fun event m hevent hfits => h.observe event m (hevent.mono hsub) hfits⟩

end Inclusion

/-- Hop counts of a program none of whose identities are in use yet do not disturb the others. -/
theorem Machine.Sound.addHops (hs : m.Sound ps c) {p : Program}
    (hnew : ∀ id ∈ p.ids, m.hops[id]? = none)
    (hothers : ∀ q ∈ ps, ∀ id ∈ q.ids, p.resolution.hops[id]? = none) :
    (m.addHops p.resolution.hops).Sound (ps ++ [p]) c := by
  have hsub : ps ⊆ ps ++ [p] := List.subset_append_left ps [p]
  refine ⟨hs.nested, hs.globals_lt, hs.outermost, hs.globals_nil,
    fun f name v hv => (hs.values f name v hv).mono hsub, hs.bounded, fun q hq id hid => ?_⟩
  change (m.hops ∪ p.resolution.hops)[id]? = _
  rw [Std.TreeMap.getElem?_union]
  rcases List.mem_append.mp hq with hq | hq
  · rw [hothers q hq id hid, Option.none_or, hs.hops q hq id hid]
  · obtain rfl := List.mem_singleton.mp hq
    rw [hnew id hid, Option.or_none]

namespace Session

/-- The programs that steps accept, in a session whose next node identity is as given. -/
def accepted (nextId : NodeId) : List Step → List Program
  | [] => []
  | .defineHost _ _ _ :: steps => accepted nextId steps
  | .run source :: steps =>
    let program := Program.ofSource source nextId
    if program.errors.isEmpty then program :: accepted program.nextId steps
    else accepted program.nextId steps

/-- What holds of a session between two steps, when `ps` are the programs accepted so far. -/
structure Sound (ps : List Program) (c : Context) (s : Session) : Prop where
  machine : s.machine.Sound ps c
  scope : s.machine.scope = s.machine.globals
  drawn : ∀ p ∈ ps, ∀ id ∈ p.ids, id < s.nextId
  hops : ∀ id, s.nextId ≤ id → s.machine.hops[id]? = none

/-- An action of a session leaves it sound, and is the same under every policy that watches. The
context at its end may be added to, as frames come after it. -/
structure Keeps (ps : List Program) (c : Context) (s : Session) {β : Type}
    (action : Policy → β × Session) (c' : Context) : Prop where
  agree : c.Agree s.machine.store c'
  later : s.machine.store.Later (action .resolved).2.machine.store
  sound : (action .resolved).2.Sound ps c'
  watched : ∀ cf policy, c'.Agree (action .resolved).2.machine.store cf →
    policy.Watches ps cf → action policy = action .resolved

section Steps

variable {s : Session} {fuel : Nat} {source : String} {p : Program}

theorem runUnder_accepted {policy : Policy} (hp : Program.ofSource source s.nextId = p)
    (h : p.errors = []) {result : Except Fault Unit} {m' : Machine}
    (hrun : Run.interpret policy fuel p.statements (s.machine.addHops p.resolution.hops) =
      (result, m')) :
    s.runUnder policy fuel source = (.ofResult result, ⟨m', p.nextId⟩) := by
  rw [runUnder, hp, h, hrun]
  rfl

/-- A text with an error only uses identities up. -/
theorem runUnder_rejected {policy : Policy} (hp : Program.ofSource source s.nextId = p)
    (h : p.errors ≠ []) :
    s.runUnder policy fuel source = (.rejected p.errors, { s with nextId := p.nextId }) := by
  rw [runUnder, hp]
  exact if_neg (by simpa using h)

theorem Sound.run_accepted (hs : s.Sound ps c) (fuel : Nat)
    (hp : Program.ofSource source s.nextId = p) (h : p.errors = []) :
    ∃ c', Keeps (ps ++ [p]) c s (fun policy => s.runUnder policy fuel source) c' := by
  have hdrawn := Program.drawn (hp ▸ h)
  have hbody := Program.hasBody (hp ▸ h)
  have hnone : ∀ id : Nat, id ∉ p.ids → p.resolution.hops[id]? = none := by
    subst hp
    exact fun id => Program.hops_eq_none
  rw [hp] at hdrawn hbody
  -- Identities of the programs before are below those of this one.
  have hothers : ∀ q ∈ ps, ∀ id ∈ q.ids, p.resolution.hops[id]? = none := by
    intro q hq id hid
    refine hnone id fun hmem => ?_
    have hlt := hs.drawn q hq id hid
    exact absurd (hdrawn.within id hmem).1 (Nat.not_le_of_lt hlt)
  have hstart := hs.machine.addHops
    (fun id hid => hs.hops id (hdrawn.within id hid).1) hothers
  obtain ⟨hrun, hagree, hlater, hsound, -, hwatched⟩ := Run.interpret_safe fuel
    (List.mem_append_right ps (List.mem_singleton_self p)) hbody hstart hs.scope
  next c' result m' =>
  have hresolved := runUnder_accepted hp h hrun
  refine ⟨c', ?_, ?_, ?_, fun cf policy hcf hwatches => ?_⟩
  · exact hagree
  · rw [hresolved]
    exact hlater.store
  · rw [hresolved]
    refine ⟨hsound, ?_, fun q hq id hid => ?_, fun id hid => ?_⟩
    · exact hlater.scope.trans (hs.scope.trans hlater.globals.symm)
    · rcases List.mem_append.mp hq with hq | hq
      · exact Nat.lt_of_lt_of_le (hs.drawn q hq id hid) hdrawn.le
      · obtain rfl := List.mem_singleton.mp hq
        exact (hdrawn.within id hid).2
    · have hfree : id ∉ p.ids := fun hmem =>
        absurd (hdrawn.within id hmem).2 (Nat.not_lt_of_le hid)
      rw [hlater.hops]
      change (s.machine.hops ∪ p.resolution.hops)[id]? = none
      rw [Std.TreeMap.getElem?_union, hnone id hfree, Option.none_or]
      exact hs.hops id (Nat.le_trans hdrawn.le hid)
  · rw [hresolved] at hcf
    rw [hresolved, runUnder_accepted hp h (hwatched cf policy hcf hwatches)]

theorem Sound.run_rejected (hs : s.Sound ps c) (fuel : Nat)
    (hp : Program.ofSource source s.nextId = p) (h : p.errors ≠ []) :
    Keeps ps c s (fun policy => s.runUnder policy fuel source) c := by
  have hrun (policy : Policy) : s.runUnder policy fuel source =
      (.rejected p.errors, { s with nextId := p.nextId }) :=
    runUnder_rejected hp h
  have hle : s.nextId ≤ p.nextId := hp ▸ Program.le_nextId source s.nextId
  refine ⟨.refl, ?_, ?_, fun cf policy _ _ => (hrun policy).trans (hrun .resolved).symm⟩
  · rw [hrun]
    exact .refl _
  · rw [hrun]
    exact ⟨hs.machine, hs.scope, fun q hq id hid => Nat.lt_of_lt_of_le (hs.drawn q hq id hid) hle,
      fun id hid => hs.hops id (Nat.le_trans hle hid)⟩

theorem Keeps.stepUnder (h : Keeps ps c s (fun policy => s.runUnder policy fuel source) c') :
    Keeps ps c s (fun policy => s.stepUnder policy fuel (.run source)) c' := by
  refine ⟨h.agree, h.later, h.sound, fun cf policy hcf hwatches => ?_⟩
  simp only [Session.stepUnder, h.watched cf policy hcf hwatches]

theorem Sound.defineHost (hs : s.Sound ps c) (fuel : Nat) (name : String) (arity : Nat)
    (body : HostBody) :
    Keeps ps c s (fun policy => s.stepUnder policy fuel (.defineHost name arity body)) c := by
  refine ⟨.refl, .define _ _ _ _, ⟨?_, hs.scope, hs.drawn, hs.hops⟩, fun _ _ _ _ => rfl⟩
  obtain ⟨v, hv⟩ : ∃ v, v = Value.host ⟨s.machine.nextIdentity, name, arity, body⟩ := ⟨_, rfl⟩
  have hplaced : v.Placed ps c (s.machine.store.define s.machine.globals name v)
      s.machine.globals := hv ▸ trivial
  have hdefined := hs.machine.define hplaced fun r hr => by
    rw [hs.machine.globals_nil] at hr
    cases hr
  subst hv
  exact ⟨hdefined.nested, hdefined.globals_lt, hdefined.outermost, hdefined.globals_nil,
    hdefined.values, hdefined.bounded, hdefined.hops⟩

/-- Further steps go on in the context that the first step leaves. -/
theorem Keeps.cons {first : Step} {rest : List Step} (hsub : ps ⊆ ps')
    (h : Keeps ps c s (fun policy => s.stepUnder policy fuel first) c')
    {c'' : Context} (h' : Keeps ps' c' (s.stepUnder .resolved fuel first).2
      (fun policy => (s.stepUnder .resolved fuel first).2.stepsUnder policy fuel rest) c'') :
    Keeps ps' c s (fun policy => s.stepsUnder policy fuel (first :: rest)) c'' := by
  refine ⟨h.agree.trans h.later h'.agree, h.later.trans h'.later, h'.sound,
    fun cf policy hcf hwatches => ?_⟩
  have hfirst := h.watched cf policy (h'.agree.trans h'.later hcf) (hwatches.anti hsub)
  have hrest := h'.watched cf policy hcf hwatches
  simp only [stepsUnder, hfirst]
  simp only [hrest]

/-- By induction on the steps, with the programs accepted so far before those still to come. -/
theorem Sound.steps (hs : s.Sound ps c) (fuel : Nat) (steps : List Step) :
    ∃ c', Keeps (ps ++ accepted s.nextId steps) c s
      (fun policy => s.stepsUnder policy fuel steps) c' := by
  induction steps generalizing s ps c with
  | nil =>
    rw [accepted, List.append_nil]
    exact ⟨c, .refl, .refl _, hs, fun _ _ _ _ => rfl⟩
  | cons first rest ih =>
    cases first with
    | defineHost name arity body =>
      have hfirst := hs.defineHost fuel name arity body
      obtain ⟨c', hrest⟩ := ih hfirst.sound
      exact ⟨c', hfirst.cons (List.subset_append_left ..) hrest⟩
    | run source =>
      obtain ⟨p, hp⟩ : ∃ p, Program.ofSource source s.nextId = p := ⟨_, rfl⟩
      have hnext (policy : Policy) :
          (s.stepUnder policy fuel (.run source)).2.nextId = p.nextId := by
        subst hp
        simp only [stepUnder, runUnder]
        split <;> rfl
      by_cases h : p.errors = []
      · obtain ⟨c₁, hrun⟩ := hs.run_accepted fuel hp h
        obtain ⟨c', hrest⟩ := ih hrun.stepUnder.sound
        have haccepted : accepted s.nextId (.run source :: rest) =
            p :: accepted p.nextId rest := by
          rw [accepted, hp, h]
          rfl
        rw [hnext, List.append_assoc, List.singleton_append, ← haccepted] at hrest
        refine ⟨c', hrun.stepUnder.cons (fun q hq => ?_) hrest⟩
        rw [haccepted]
        simpa [or_assoc] using Or.inl (List.mem_append.mp hq)
      · have hfirst := (hs.run_rejected fuel hp h).stepUnder
        obtain ⟨c', hrest⟩ := ih hfirst.sound
        have haccepted : accepted s.nextId (.run source :: rest) = accepted p.nextId rest := by
          rw [accepted, hp]
          exact if_neg (by simpa using h)
        rw [hnext, ← haccepted] at hrest
        exact ⟨c', hfirst.cons (List.subset_append_left ..) hrest⟩

theorem initial_sound (sink : Sink) : (initial sink).Sound [] fun _ => [] := by
  have hempty : Store.empty.Nested := by
    intro f g hg
    cases hg
  have hnested : (initial sink).machine.store.Nested := hempty.allocate (by simp)
  refine ⟨⟨hnested, Nat.zero_lt_one, rfl, rfl, ?_, fun f r hr => (nomatch hr), ?_⟩,
    rfl, ?_, fun id _ => Std.TreeMap.getElem?_emptyc⟩
  · intro f name v hv
    rcases Nat.eq_zero_or_pos f with rfl | hpos
    · cases hv
    · have hnone : (initial sink).machine.store.get? f name = none :=
        Store.get?_eq_none_of_le hpos
      rw [hnone] at hv
      cases hv
  · intro p hp
    cases hp
  · intro p hp
    cases hp

end Steps

end Session

open Classical in
/-- Finds variables by their hop counts, and fails when the given event comes in the given
machine. -/
noncomputable def Policy.stoppingAt (event : Event) (m : Machine) (d : Diagnostic) : Policy where
  observe event' := fun m' =>
    if event' = event ∧ m' = m then (.error (.failure d), m') else (.ok (), m')
  read := Policy.resolved.read
  write := Policy.resolved.write

theorem Policy.stoppingAt_watches {event : Event} {d : Diagnostic} (h : ¬ event.Holds ps c m) :
    (Policy.stoppingAt event m d).Watches ps c where
  read := rfl
  write _ _ _ _ := rfl
  observe event' m' hholds _ := by
    refine if_neg fun hsame => h ?_
    rwa [hsame.1, hsame.2] at hholds

namespace Session

/-- The steps come upon an event in a machine: they go differently if they fail there. -/
def Happens (fuel : Nat) (s : Session) (steps : List Step) (event : Event) (m : Machine) : Prop :=
  ∃ d, s.stepsUnder (.stoppingAt event m d) fuel steps ≠ s.stepsUnder .resolved fuel steps

/-- There is an account of which frame is an activation of which part of which accepted program,
such that whenever a session evaluates an expression, the frames in view are activations of just
the blocks and bodies around the expression, and a variable with a hop count is read from the
activation that the hop count leads to. -/
theorem event_holds (fuel : Nat) (sink : Sink) (steps : List Step) :
    ∃ c : Context, ∀ event m, (initial sink).Happens fuel steps event m →
      event.Holds (accepted 0 steps) c m := by
  obtain ⟨c, hkeeps⟩ := (initial_sound sink).steps fuel steps
  refine ⟨c, fun event m ⟨d, hd⟩ => ?_⟩
  refine Classical.byContradiction fun hfails => hd ?_
  exact hkeeps.watched c _ .refl (Policy.stoppingAt_watches hfails)

/-- A text that is accepted tells two policies apart if its run fails under one of them and is done
under the other. -/
theorem stepsUnder_ne_of_failed {fuel : Nat} {sink : Sink} {source : String} {p : Program}
    (hp : Program.ofSource source 0 = p) (h : p.errors = []) {policy policy' : Policy}
    {d : Diagnostic}
    (hfailed : (Run.interpret policy fuel p.statements
      ((Machine.initial sink).addHops p.resolution.hops)).1 = .error (.failure d))
    (hdone : (Run.interpret policy' fuel p.statements
      ((Machine.initial sink).addHops p.resolution.hops)).1 = .ok ()) :
    (initial sink).stepsUnder policy fuel [.run source] ≠
      (initial sink).stepsUnder policy' fuel [.run source] := by
  have hanswer (policy : Policy) : ∃ printed count,
      ((initial sink).stepsUnder policy fuel [.run source]).1 =
        [.ran (.ofResult (Run.interpret policy fuel p.statements
          ((Machine.initial sink).addHops p.resolution.hops)).1) printed count] := by
    have hrun := @runUnder_accepted (initial sink) fuel source p policy hp h _ _ rfl
    simp only [stepsUnder, stepUnder, hrun]
    exact ⟨_, _, rfl⟩
  intro heq
  obtain ⟨printed, count, hstopped⟩ := hanswer policy
  obtain ⟨printed', count', hresolved⟩ := hanswer policy'
  rw [heq, hresolved, hfailed, hdone] at hstopped
  injection hstopped with hstopped
  injection hstopped with hstopped
  cases hstopped

/-- A block that declares a variable and reads it. -/
def localRead : String := "\x7b var a; a; \x7d"

/-- The name that is declared and read. -/
def localName : Token := ⟨.identifier, "a", 1⟩

/-- The machine right before the variable is read. -/
def beforeLocalRead : Machine where
  store := ((Store.empty.allocate [] none).allocate [] (some 0)).define 1 "a" .nil
  scope := 1
  globals := 0
  hops := ∅ ∪ (∅ : HopTable).insert 0 0
  sink := .unlimited
  nextIdentity := 0

theorem localRead_tokens : Source.tokens localRead =
    [⟨.punctuator .leftBrace, "\x7b", 1⟩, ⟨.keyword .var_, "var", 1⟩, localName,
      ⟨.punctuator .semicolon, ";", 1⟩, localName, ⟨.punctuator .semicolon, ";", 1⟩,
      ⟨.punctuator .rightBrace, "\x7d", 1⟩, Token.endMark 1] := rfl

theorem localRead_program : Program.ofSource localRead 0 =
    { statements := [.block [.declare localName none, .expression (.var 0 localName)]]
      lexicalErrors := []
      syntacticErrors := []
      resolution := ⟨[⟨.read, 0, localName, some 0⟩], []⟩
      nextId := 1 } := by
  rw [Program.ofSource, localRead_tokens]
  rfl

/-- A block fails where it has declared a variable and what comes next fails. -/
theorem interpret_local_failed {policy : Policy} {e : Expr} {table : HopTable} {fault : Fault}
    (hentry : ∀ r m, policy.observe (.entry r) m = (.ok (), m))
    (heval : ∀ run, e.eval policy run { beforeLocalRead with hops := table } =
      (.error fault, { beforeLocalRead with hops := table })) :
    (Run.interpret policy 1 [.block [.declare localName none, .expression e]]
      { beforeLocalRead with
        store := Store.empty.allocate [] none, scope := 0, hops := table }).1 = .error fault := by
  have hexpression (run : Region → Run Flow) :
      Stmt.exec policy 1 run (.expression e) { beforeLocalRead with hops := table } =
        (.error fault, { beforeLocalRead with hops := table }) := by
    simp only [Stmt.exec, Run.discard_eq, Run.bind_apply, heval]
  have hbody (run : Region → Run Flow) :
      Stmt.execAll policy 1 run [.declare localName none, .expression e]
        { beforeLocalRead with
          store := (Store.empty.allocate [] none).allocate [] (some 0), hops := table } =
            (.error fault, { beforeLocalRead with hops := table }) := by
    rw [Stmt.execAll, Run.bind_apply]
    change (Stmt.execAll policy 1 run [.expression e]) { beforeLocalRead with hops := table } = _
    rw [Stmt.execAll, Run.bind_apply, hexpression]
  have hblock (run : Region → Run Flow) :
      Stmt.exec policy 1 run (.block [.declare localName none, .expression e])
        { beforeLocalRead with
          store := Store.empty.allocate [] none, scope := 0, hops := table } =
            (.error fault, { beforeLocalRead with scope := 0, hops := table }) := by
    simp only [Stmt.exec]
    rw [Run.bind_apply, Run.get_apply]
    dsimp only
    rw [Run.inNewFrame_apply]
    simp only [Run.bind_apply, hentry]
    have hopened := hbody run
    exact congrArg (fun r => (r.1, { r.2 with scope := 0 })) hopened
  simp only [Run.interpret, Run.executeEach, Run.execute, Run.discard_eq, Run.bind_apply, hblock]

theorem localRead_happens : (initial .unlimited).Happens 1 [.run localRead]
    (.evaluation (.var 0 localName)) beforeLocalRead := by
  have hread : (Policy.stoppingAt (.evaluation (.var 0 localName)) beforeLocalRead
      (.sink .flush)).observe (.evaluation (.var 0 localName)) beforeLocalRead =
        (.error (.failure (.sink .flush)), beforeLocalRead) :=
    if_pos ⟨rfl, rfl⟩
  have hentry (r : Region) (m : Machine) : (Policy.stoppingAt (.evaluation (.var 0 localName))
      beforeLocalRead (.sink .flush)).observe (.entry r) m = (.ok (), m) :=
    if_neg fun h => nomatch h.1
  have hfailed := @interpret_local_failed _ (.var 0 localName) beforeLocalRead.hops
    (.failure (.sink .flush)) hentry fun run => by
      rw [Expr.eval, Run.bind_apply]
      simp only [hread]
  exact ⟨.sink .flush, stepsUnder_ne_of_failed localRead_program rfl hfailed rfl⟩

theorem event_holds_localRead : ∃ c : Context,
    (initial .unlimited).Happens 1 [.run localRead] (.evaluation (.var 0 localName))
      beforeLocalRead ∧
    Event.Holds (accepted 0 [.run localRead]) c beforeLocalRead
      (.evaluation (.var 0 localName)) := by
  obtain ⟨c, hc⟩ := event_holds 1 .unlimited [.run localRead]
  exact ⟨c, localRead_happens, hc _ _ localRead_happens⟩

end Session

end TreeWalk
