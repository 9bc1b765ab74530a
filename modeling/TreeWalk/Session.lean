import TreeWalk.Machine.Eval
import TreeWalk.Program

/-!
Sessions: one machine that runs source texts one after another. A text with any lexical, syntactic
or scoping error is rejected as a whole and leaves the machine as it was.
-/

namespace TreeWalk

/-- How running a source text ends. -/
inductive Outcome where
  | done
  | rejected (errors : List Diagnostic)
  | failed (error : Diagnostic)
  | exhausted

namespace Outcome

def errors : Outcome → List Diagnostic
  | done => []
  | rejected ds => ds
  | failed d => [d]
  | exhausted => []

/-- What the user is told of a run that did not get done. -/
def text : Outcome → String
  | exhausted => "out of fuel"
  | outcome => Diagnostic.report outcome.errors

/-- The status that a process ends with: 65 when nothing was run, 70 when a run failed. -/
def exitCode : Outcome → Nat
  | done => 0
  | rejected _ => 65
  | failed _ => 70
  | exhausted => 70

def ofResult : Except Fault Unit → Outcome
  | .ok () => done
  | .error (.failure d) => failed d
  | .error .exhausted => exhausted

end Outcome

structure Session where
  machine : Machine
  nextId : NodeId

namespace Session

def initial (sink : Sink) : Session :=
  ⟨Machine.initial sink, 0⟩

/-- More fuel than any run in practice uses up. -/
def ampleFuel : Nat := Nat.pow 10 18

/-- Runs a source text under a policy. Node identities are used up even by a rejected text. -/
def runUnder (policy : Policy) (fuel : Nat) (source : String) (s : Session) : Outcome × Session :=
  let program := Program.ofSource source s.nextId
  if program.errors.isEmpty then
    let (result, machine) :=
      Run.interpret policy fuel program.statements (s.machine.addHops program.resolution.hops)
    (.ofResult result, ⟨machine, program.nextId⟩)
  else (.rejected program.errors, { s with nextId := program.nextId })

/-- Runs a source text. -/
def run (fuel : Nat) (source : String) (s : Session) : Outcome × Session :=
  s.runUnder .resolved fuel source

/-- How many references the machine holds hop counts for. -/
def localCount (s : Session) : Nat :=
  s.machine.hops.size

/-- All bytes printed so far. -/
def printed (s : Session) : ByteArray :=
  s.machine.sink.written

/-- Makes a host function a global. -/
def defineHost (name : String) (arity : Nat) (body : HostBody) (s : Session) : Session :=
  { s with machine := s.machine.defineHost name arity body }

/-- What can be asked of a session. -/
inductive Step where
  | run (source : String)
  | defineHost (name : String) (arity : Nat) (body : HostBody)

/-- What a step shows of itself: how its run ended, what it printed, and the hop counts held
afterwards; or the name it defined. -/
inductive Answer where
  | ran (outcome : Outcome) (printed : ByteArray) (localCount : Nat)
  | defined (name : String)

def stepUnder (policy : Policy) (fuel : Nat) (s : Session) : Step → Answer × Session
  | .run source =>
    let before := s.printed.size
    let (outcome, s') := s.runUnder policy fuel source
    (.ran outcome (s'.printed.extract before s'.printed.size) s'.localCount, s')
  | .defineHost name arity body => (.defined name, s.defineHost name arity body)

def step (fuel : Nat) (s : Session) : Step → Answer × Session :=
  s.stepUnder .resolved fuel

/-- The answers to several steps in turn, and the session after them. -/
def stepsUnder (policy : Policy) (fuel : Nat) (s : Session) : List Step → List Answer × Session
  | [] => ([], s)
  | first :: rest =>
    let (answer, s₁) := s.stepUnder policy fuel first
    let (answers, s₂) := s₁.stepsUnder policy fuel rest
    (answer :: answers, s₂)

/-- The answers to several steps in turn. -/
def steps (fuel : Nat) (s : Session) (steps : List Step) : List Answer :=
  (s.stepsUnder .resolved fuel steps).1

end Session

end TreeWalk
