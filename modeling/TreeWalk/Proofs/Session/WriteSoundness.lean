import TreeWalk.Proofs.Session.HopSoundness

/-! Assignments to variables that have hop counts. They find the variable bound, with one exception:
the resolver lets a variable be assigned to in its own initializer, and nothing binds it there if it
was not declared before. -/

namespace TreeWalk

variable {ps : List Program} {c : Context} {m : Machine} {w : Write}

/-- A variable that is bound where its hop count leads is changed there, and nothing else is. -/
theorem Policy.write_of_binds {id : NodeId} {name : Token} {v : Value} {d : Nat} {frame : FrameId}
    (hd : m.hops[id]? = some d) (hframe : m.store.ancestor? m.scope d = some frame)
    (hbinds : m.store.binds name.lexeme frame = true) :
    Policy.resolved.write id name v m =
      (.ok (), { m with store := m.store.define frame name.lexeme v }) := by
  have hwrite : Policy.resolved.write id name v m =
      Run.onStore (Store.writeIn (m.store.ancestor? m.scope d) name v) m := by
    simp only [Policy.resolved, hd]
    rfl
  rw [hwrite, hframe]
  apply Machine.onStore_writeIn_of_some
  rw [Option.filter_some, if_pos hbinds]

open Classical in
/-- Finds variables by their hop counts, and fails when the given write comes in the given
machine. -/
noncomputable def Policy.refusing (w : Write) (m : Machine) (d : Diagnostic) : Policy where
  observe := Policy.resolved.observe
  read := Policy.resolved.read
  write id name v := fun m' =>
    if ⟨id, name, v⟩ = w ∧ m' = m then (.error (.failure d), m')
    else Policy.resolved.write id name v m'

theorem Policy.refusing_watches {d : Diagnostic} (h : ¬ Write.Holds ps c m w) :
    (Policy.refusing w m d).Watches ps c where
  read := rfl
  write w' m' hholds _ := by
    refine if_neg fun hsame => h ?_
    obtain ⟨rfl, rfl⟩ := hsame
    exact hholds
  observe _ _ _ _ := rfl

namespace Session

/-- The steps come to a write in a machine: they go differently if they fail there. -/
def Writes (fuel : Nat) (s : Session) (steps : List Step) (w : Write) (m : Machine) : Prop :=
  ∃ d, s.stepsUnder (.refusing w m d) fuel steps ≠ s.stepsUnder .resolved fuel steps

/-- Whenever a session assigns to a variable with a hop count, the assignment succeeds, and the
variable is bound already in the frame that the hop count leads to. Only the initializer with which
a scope declares a name for the first time may assign to that name in vain. -/
theorem write_succeeds (fuel : Nat) (sink : Sink) (steps : List Step) (w : Write) (m : Machine)
    (h : (initial sink).Writes fuel steps w m) :
    ∃ p ∈ accepted 0 steps, ∃ regions e, (regions, .assign w.id w.name e) ∈ p.sites ∧
      m.hops[w.id]? = p.resolution.hops[w.id]? ∧ ∀ d, p.resolution.hops[w.id]? = some d →
        (∃ frame, m.store.ancestor? m.scope d = some frame ∧
          m.store.binds w.name.lexeme frame = true ∧
            Policy.resolved.write w.id w.name w.value m =
              (.ok (), { m with store := m.store.define frame w.name.lexeme w.value })) ∨
        (d = 0 ∧ ∃ r ∈ regions.head?, r.Initializes w.name.lexeme (.assign w.id w.name e)) := by
  obtain ⟨c, hkeeps⟩ := (initial_sound sink).steps fuel steps
  obtain ⟨diagnostic, hdiffers⟩ := h
  -- A write that does not hold could be refused without a difference.
  have hholds : Write.Holds (accepted 0 steps) c m w := by
    refine Classical.byContradiction fun hfails => ?_
    exact hdiffers (hkeeps.watched c _ .refl (Policy.refusing_watches hfails))
  obtain ⟨p, hp, regions, e, hsite, hhops, hplace⟩ := hholds
  refine ⟨p, hp, regions, e, hsite, hhops, fun d hd => ?_⟩
  obtain ⟨frame, region, hframe, hregion, -, -, hbound⟩ := hplace d hd
  rcases hbound with hbinds | ⟨rfl, hfirst⟩
  · left
    exact ⟨frame, hframe, hbinds, Policy.write_of_binds (hhops.trans hd) hframe hbinds⟩
  · right
    rw [← List.head?_eq_getElem?] at hregion
    exact ⟨rfl, region, hregion, hfirst⟩

/-- A block that declares a variable and assigns to it. -/
def localWrite : String := "\x7b var a; a = nil; \x7d"

/-- The machine right before the variable is changed. -/
def beforeLocalWrite : Machine :=
  { beforeLocalRead with hops := ∅ ∪ (∅ : HopTable).insert 1 0 }

theorem localWrite_tokens : Source.tokens localWrite =
    [⟨.punctuator .leftBrace, "\x7b", 1⟩, ⟨.keyword .var_, "var", 1⟩, localName,
      ⟨.punctuator .semicolon, ";", 1⟩, localName, ⟨.punctuator .equal, "=", 1⟩,
      ⟨.keyword .nil_, "nil", 1⟩, ⟨.punctuator .semicolon, ";", 1⟩,
      ⟨.punctuator .rightBrace, "\x7d", 1⟩, Token.endMark 1] := rfl

theorem localWrite_program : Program.ofSource localWrite 0 =
    { statements :=
        [.block [.declare localName none, .expression (.assign 1 localName (.literal .nil))]]
      lexicalErrors := []
      syntacticErrors := []
      resolution := ⟨[⟨.write, 1, localName, some 0⟩], []⟩
      nextId := 2 } := by
  rw [Program.ofSource, localWrite_tokens]
  rfl

theorem localWrite_writes : (initial .unlimited).Writes 1 [.run localWrite]
    ⟨1, localName, .nil⟩ beforeLocalWrite := by
  refine ⟨.sink .flush, ?_⟩
  have hobserve (event : Event) (m : Machine) : (Policy.refusing ⟨1, localName, .nil⟩
      beforeLocalWrite (.sink .flush)).observe event m = (.ok (), m) := rfl
  have hwrite : (Policy.refusing ⟨1, localName, .nil⟩ beforeLocalWrite (.sink .flush)).write 1
      localName .nil beforeLocalWrite = (.error (.failure (.sink .flush)), beforeLocalWrite) :=
    if_pos ⟨rfl, rfl⟩
  generalize Policy.refusing ⟨1, localName, .nil⟩ beforeLocalWrite (.sink .flush) = policy at *
  have heval (run : Region → Run Flow) :
      Expr.eval policy run (.assign 1 localName (.literal .nil)) beforeLocalWrite =
        (.error (.failure (.sink .flush)), beforeLocalWrite) := by
    have hvalue : Expr.eval policy run (.literal .nil) beforeLocalWrite =
        (.ok .nil, beforeLocalWrite) := by
      rw [Expr.eval, Run.bind_apply, hobserve]
      rfl
    rw [Expr.eval, Run.bind_apply, hobserve]
    simp only [Run.bind_apply, hvalue, hwrite]
  have hfailed := @interpret_local_failed policy _ beforeLocalWrite.hops _
    (fun r => hobserve (.entry r)) heval
  exact stepsUnder_ne_of_failed localWrite_program rfl hfailed rfl

theorem write_succeeds_localWrite :
    (initial .unlimited).Writes 1 [.run localWrite] ⟨1, localName, .nil⟩ beforeLocalWrite ∧
      beforeLocalWrite.hops[1]? = some 0 ∧
        ∃ p ∈ accepted 0 [.run localWrite],
          beforeLocalWrite.hops[1]? = p.resolution.hops[1]? := by
  obtain ⟨p, hp, -, -, -, hhops, -⟩ :=
    write_succeeds 1 .unlimited [.run localWrite] _ _ localWrite_writes
  exact ⟨localWrite_writes, rfl, p, hp, hhops⟩

/-- A block that declares a variable and assigns to it in its initializer. -/
def initializerWrite : String := "\x7b var a = a = nil; \x7d"

theorem initializerWrite_tokens : Source.tokens initializerWrite =
    [⟨.punctuator .leftBrace, "\x7b", 1⟩, ⟨.keyword .var_, "var", 1⟩, localName,
      ⟨.punctuator .equal, "=", 1⟩, localName, ⟨.punctuator .equal, "=", 1⟩,
      ⟨.keyword .nil_, "nil", 1⟩, ⟨.punctuator .semicolon, ";", 1⟩,
      ⟨.punctuator .rightBrace, "\x7d", 1⟩, Token.endMark 1] := rfl

theorem initializerWrite_program : Program.ofSource initializerWrite 0 =
    { statements := [.block [.declare localName (some (.assign 1 localName (.literal .nil)))]]
      lexicalErrors := []
      syntacticErrors := []
      resolution := ⟨[⟨.write, 1, localName, some 0⟩], []⟩
      nextId := 2 } := by
  rw [Program.ofSource, initializerWrite_tokens]
  rfl

/-- The program is accepted and has a hop count for its only variable, and yet the assignment finds
the variable undefined. -/
theorem initializerWrite_fails :
    (Program.ofSource initializerWrite 0).errors = [] ∧
      (Program.ofSource initializerWrite 0).resolution.references =
        [⟨.write, 1, localName, some 0⟩] ∧
      ((initial .unlimited).run 1 initializerWrite).1 = .failed (Store.undefined localName) := by
  have hrun : ((initial .unlimited).run 1 initializerWrite).1 =
      .failed (Store.undefined localName) := by
    rw [run, runUnder, show (initial .unlimited).nextId = 0 from rfl, initializerWrite_program]
    rfl
  rw [initializerWrite_program]
  exact ⟨rfl, rfl, hrun⟩

end Session

end TreeWalk
