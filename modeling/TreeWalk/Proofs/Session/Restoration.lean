import TreeWalk.Proofs.Machine.Territory
import TreeWalk.Session

/-! The frame that is current before a machine does something is current again afterwards, however it
ended. So between the steps of a session the globals are current. -/

namespace TreeWalk

namespace Run

/-- Does something with the given frame current, and afterwards, however it ended, makes the frame
current that was so before. -/
def inFrame {α : Type} (frame : FrameId) (action : Run α) : Run α := fun m =>
  let (result, m') := action { m with scope := frame }
  (result, { m' with scope := m.scope })

/-- To run in a new frame is to open the frame and run in it. -/
theorem inNewFrame_eq_inFrame {α : Type} (bindings : Bindings) (enclosing : FrameId)
    (action : Run α) (m : Machine) :
    Run.inNewFrame bindings enclosing action m =
      Run.inFrame m.store.nextFrame action
        { m with store := m.store.allocate bindings (some enclosing) } :=
  rfl

/-- Whatever machine it starts in and however it ends, an action leaves the same frame current and
the same frame for the globals. -/
def Restores {α : Type} (r : Run α) : Prop :=
  ∀ m : Machine, (r m).2.scope = m.scope ∧ (r m).2.globals = m.globals

theorem restores_of_keeps {α : Type} {r : Run α} {names : List String}
    (h : ∀ m : Machine, m.Keeps names (r m).2) : Restores r :=
  fun m => ⟨(h m).later.scope, (h m).later.globals⟩

theorem evaluate_restores (fuel : Nat) (e : Expr) : Restores (evaluate .resolved fuel e) :=
  restores_of_keeps fun m => (e.eval_stays (runBody_stays fuel) m.within_everywhere).keeps

theorem execute_restores (fuel : Nat) (s : Stmt) : Restores (execute .resolved fuel s) :=
  restores_of_keeps fun m => (s.exec_stays (runBody_stays fuel) fuel m.within_everywhere).keeps

theorem executeBlock_restores (fuel : Nat) (frame : FrameId) (body : List Stmt) :
    Restores (inFrame frame (Stmt.execAll .resolved fuel (runBody .resolved fuel) body)) := by
  intro m
  have hbody := Stmt.execAll_stays (runBody_stays fuel) fuel
    (Machine.within_everywhere { m with scope := frame }) body
  exact ⟨rfl, hbody.keeps.later.globals⟩

theorem interpret_restores (fuel : Nat) (program : List Stmt) :
    Restores (interpret .resolved fuel program) :=
  restores_of_keeps fun m => (interpret_stays fuel m.within_everywhere program).keeps

end Run

namespace Session

/-- No step, failed or not, changes which frames are current and global. -/
theorem step_restores (fuel : Nat) (s : Session) (first : Step) :
    (s.step fuel first).2.machine.scope = s.machine.scope ∧
      (s.step fuel first).2.machine.globals = s.machine.globals := by
  cases first with
  | defineHost name arity body => exact ⟨rfl, rfl⟩
  | run source =>
    simp only [step, stepUnder, runUnder]
    generalize Program.ofSource source s.nextId = program
    split
    · exact Run.interpret_restores fuel program.statements
        (s.machine.addHops program.resolution.hops)
    · exact ⟨rfl, rfl⟩

theorem steps_restore (fuel : Nat) (s : Session) (steps : List Step) :
    (s.stepsUnder .resolved fuel steps).2.machine.scope = s.machine.scope ∧
      (s.stepsUnder .resolved fuel steps).2.machine.globals = s.machine.globals := by
  induction steps generalizing s with
  | nil => exact ⟨rfl, rfl⟩
  | cons first rest ih =>
    obtain ⟨hscope, hglobals⟩ := s.step_restores fuel first
    obtain ⟨hscope', hglobals'⟩ := ih (s.step fuel first).2
    exact ⟨hscope'.trans hscope, hglobals'.trans hglobals⟩

end Session

/-- Evaluating an expression, executing a statement, executing statements in whatever frame and
running a program each leave the same frame current and the same frame for the globals, from whatever
machine they start and however they end. So after any steps of a session, failed or not, the current
frame is the one with the globals. -/
theorem scope_restored (fuel : Nat) :
    (∀ e, Run.Restores (Run.evaluate .resolved fuel e)) ∧
    (∀ s, Run.Restores (Run.execute .resolved fuel s)) ∧
    (∀ frame body, Run.Restores
      (Run.inFrame frame (Stmt.execAll .resolved fuel (runBody .resolved fuel) body))) ∧
    (∀ program, Run.Restores (Run.interpret .resolved fuel program)) ∧
    ∀ sink steps, ((Session.initial sink).stepsUnder .resolved fuel steps).2.machine.scope =
      ((Session.initial sink).stepsUnder .resolved fuel steps).2.machine.globals := by
  refine ⟨Run.evaluate_restores fuel, Run.execute_restores fuel, Run.executeBlock_restores fuel,
    Run.interpret_restores fuel, fun sink steps => ?_⟩
  obtain ⟨hscope, hglobals⟩ := (Session.initial sink).steps_restore fuel steps
  calc
    _ = (Session.initial sink).machine.scope := hscope
    _ = (Session.initial sink).machine.globals := rfl
    _ = _ := hglobals.symm

end TreeWalk
