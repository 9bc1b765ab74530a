import TreeWalk.Machine.Operator

/-!
Evaluation of expressions and execution of statements. The recursion follows the syntax; rounds of
a loop and calls inside calls are counted against the fuel.
-/

namespace TreeWalk

/-- Repeats a step that yields nothing to end a loop, or the way its body ended. -/
def Run.iterate (step : Run (Option Flow)) : Nat → Run Flow
  | 0 => throw .exhausted
  | limit + 1 => fun m =>
    match step m with
    | (.ok (some .normal), m') => Run.iterate step limit m'
    | (.ok (some (.returned v)), m') => (.ok (.returned v), m')
    | (.ok none, m') => (.ok .normal, m')
    | (.error fault, m') => (.error fault, m')

theorem Run.iterate_succ (step : Run (Option Flow)) (limit : Nat) :
    Run.iterate step (limit + 1) = do
      match ← step with
      | some .normal => Run.iterate step limit
      | some (.returned v) => return .returned v
      | none => return .normal := by
  funext m
  rw [Run.iterate, Run.bind_apply]
  dsimp only
  cases step m with
  | mk result m' =>
    cases result with
    | error fault => rfl
    | ok o =>
      cases o with
      | none => rfl
      | some flow => cases flow <;> rfl

/-- Calls a value. A closure runs its body in a new frame that binds its parameters. -/
def Value.call (run : Region → Run Flow) (paren : Token) (arguments : List Value) :
    Value → Run Value
  | .literal _ => Run.fail paren .notCallable
  | .closure f => do
    if arguments.length ≠ f.params.length then
      Run.fail paren (.argumentCount f.params.length arguments.length)
    else
      let bindings := Bindings.ofArguments f.params arguments
      return (← Run.inNewFrame bindings f.frame (run ⟨f.params, f.body⟩)).result
  | .host f => do
    if arguments.length ≠ f.arity then
      Run.fail paren (.argumentCount f.arity arguments.length)
    else
      Run.ofReply paren arguments (f.body (arguments.map view))

namespace Expr

mutual

/-- Evaluates an expression; `run` executes the bodies of called functions. -/
def eval (policy : Policy) (run : Region → Run Flow) (e : Expr) : Run Value := do
  policy.observe (.evaluation e)
  match e with
  | literal value => return .literal value
  | grouping inner => eval policy run inner
  | unary operator right =>
    let v ← eval policy run right
    Run.ofOperation operator (Operation.unary operator.kind v)
  | binary left operator right =>
    let v ← eval policy run left
    let w ← eval policy run right
    Run.ofOperation operator (Operation.binary operator.kind v w)
  | logical left operator right =>
    let v ← eval policy run left
    if Operation.settles operator v then return v else eval policy run right
  | var id name => policy.read id name
  | assign id name value =>
    let v ← eval policy run value
    policy.write id name v
    return v
  | call callee paren arguments =>
    let f ← eval policy run callee
    let vs ← evalAll policy run arguments
    f.call run paren vs
  termination_by structural e

/-- Evaluates arguments from left to right. -/
def evalAll (policy : Policy) (run : Region → Run Flow) (es : List Expr) : Run (List Value) :=
  match es with
  | [] => return []
  | e :: es => return (← eval policy run e) :: (← evalAll policy run es)
  termination_by structural es

end

/-- A missing expression stands for `nil`. -/
def evalOption (policy : Policy) (run : Region → Run Flow) : Option Expr → Run Value
  | some e => eval policy run e
  | none => return .nil

end Expr

namespace Stmt

mutual

/-- Executes a statement; a loop goes round at most `limit` times. -/
def exec (policy : Policy) (limit : Nat) (run : Region → Run Flow) : Stmt → Run Flow
  | expression e => do
    discard (e.eval policy run)
    return .normal
  | print e => do
    let v ← e.eval policy run
    Run.print (v.text ++ "\n")
    return .normal
  | declare name initializer => do
    let v ← Expr.evalOption policy run initializer
    Run.define name v
    return .normal
  | block body => do
    Run.inNewFrame [] (← get).scope do
      policy.observe (.entry ⟨[], body⟩)
      execAll policy limit run body
  | ifThen condition thenBranch => do
    if (← condition.eval policy run).truthy then exec policy limit run thenBranch
    else return .normal
  | ifElse condition thenBranch elseBranch => do
    if (← condition.eval policy run).truthy then exec policy limit run thenBranch
    else exec policy limit run elseBranch
  | whileLoop condition body =>
    Run.iterate
      (do
        if (← condition.eval policy run).truthy then return some (← exec policy limit run body)
        else return none)
      limit
  | function name params body => do
    Run.define name (← Run.makeClosure name params body)
    return .normal
  | returnFrom _ value => return .returned (← Expr.evalOption policy run value)

/-- Executes statements until one of them returns. -/
def execAll (policy : Policy) (limit : Nat) (run : Region → Run Flow) : List Stmt → Run Flow
  | [] => return .normal
  | s :: ss => do
    match ← exec policy limit run s with
    | .normal => execAll policy limit run ss
    | .returned v => return .returned v

end

end Stmt

/-- Executes the body of a function, with so much fuel for it and for all that it calls. -/
def runBody (policy : Policy) : Nat → Region → Run Flow
  | 0, _ => throw .exhausted
  | fuel + 1, r => do
    policy.observe (.entry r)
    Stmt.execAll policy fuel (runBody policy fuel) r.body

namespace Run

/-- Evaluates an expression with the given fuel. -/
def evaluate (policy : Policy) (fuel : Nat) (e : Expr) : Run Value :=
  e.eval policy (runBody policy fuel)

/-- Executes one statement with the given fuel. -/
def execute (policy : Policy) (fuel : Nat) (s : Stmt) : Run Flow :=
  s.exec policy fuel (runBody policy fuel)

def executeEach (policy : Policy) (fuel : Nat) : List Stmt → Run Unit
  | [] => return
  | s :: ss => do
    discard (execute policy fuel s)
    executeEach policy fuel ss

/-- Runs a program: every statement in turn, whatever its flow, and then a flush. -/
def interpret (policy : Policy) (fuel : Nat) (program : List Stmt) : Run Unit := do
  executeEach policy fuel program
  flush

end Run

end TreeWalk
