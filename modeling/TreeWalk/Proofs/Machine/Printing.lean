import TreeWalk.Proofs.Machine.Keeping

/-! The moments at which a run is about to print. They follow the recursion that runs the program:
what a construct prints is what its parts print, each in the machine that the parts before it
leave. -/

namespace TreeWalk

/-- In which machines a run that starts from the one machine comes to print a text. -/
abbrev Prints := Machine → String → Machine → Prop

namespace Prints

variable {α : Type}

def nothing : Prints := fun _ _ _ => False

def only (text : String) : Prints := fun m text' m' => text' = text ∧ m' = m

/-- What is printed in the course of an action, and then what is printed after its result. -/
def andThen (first : Prints) (r : Run α) (rest : α → Prints) : Prints := fun m text m₁ =>
  first m text m₁ ∨ ∃ a m', r m = (.ok a, m') ∧ rest a m' text m₁

def inNewFrame (bindings : Bindings) (enclosing : FrameId) (inside : Prints) : Prints := fun m =>
  inside (m.opened bindings enclosing)

/-- What the rounds of a loop print, of which each goes on from where the one before ended. -/
def iterate (round : Prints) (step : Run (Option Flow)) : Nat → Prints
  | 0 => nothing
  | limit + 1 => round.andThen step fun
    | some .normal => iterate round step limit
    | _ => nothing

end Prints

variable (run : Region → Run Flow) (inside : Region → Prints)

/-- What a call prints, where `inside` tells what the bodies of functions print. -/
def Value.prints (arguments : List Value) : Value → Prints
  | .closure f =>
    if arguments.length ≠ f.params.length then .nothing
    else
      (inside ⟨f.params, f.body⟩).inNewFrame (Bindings.ofArguments f.params arguments) f.frame
  | _ => .nothing

namespace Expr

mutual

def prints : Expr → Prints
  | literal _ => .nothing
  | grouping inner => prints inner
  | unary _ right => prints right
  | binary left _ right =>
    (prints left).andThen (left.eval .resolved run) fun _ => prints right
  | logical left operator right =>
    (prints left).andThen (left.eval .resolved run) fun v =>
      if Operation.settles operator v then .nothing else prints right
  | var _ _ => .nothing
  | assign _ _ value => prints value
  | call callee _ arguments =>
    (prints callee).andThen (callee.eval .resolved run) fun f =>
      (printsAll arguments).andThen (evalAll .resolved run arguments) fun vs => f.prints inside vs

def printsAll : List Expr → Prints
  | [] => .nothing
  | e :: es => (prints e).andThen (e.eval .resolved run) fun _ => printsAll es

end

def printsOption : Option Expr → Prints
  | some e => e.prints run inside
  | none => .nothing

end Expr

namespace Stmt

variable (limit : Nat)

mutual

def prints : Stmt → Prints
  | expression e => e.prints run inside
  | print e =>
    (e.prints run inside).andThen (e.eval .resolved run) fun v => .only (v.text ++ "\n")
  | declare _ initializer => Expr.printsOption run inside initializer
  | block body => fun m => (printsAll body).inNewFrame [] m.scope m
  | ifThen condition thenBranch =>
    (condition.prints run inside).andThen (condition.eval .resolved run) fun v =>
      if v.truthy then prints thenBranch else .nothing
  | ifElse condition thenBranch elseBranch =>
    (condition.prints run inside).andThen (condition.eval .resolved run) fun v =>
      if v.truthy then prints thenBranch else prints elseBranch
  | whileLoop condition body =>
    ((condition.prints run inside).andThen (condition.eval .resolved run) fun v =>
      if v.truthy then prints body else .nothing).iterate
        (do
          if (← condition.eval .resolved run).truthy then
            return some (← body.exec .resolved limit run)
          else return none)
        limit
  | function _ _ _ => .nothing
  | returnFrom _ value => Expr.printsOption run inside value

def printsAll : List Stmt → Prints
  | [] => .nothing
  | s :: ss => (prints s).andThen (s.exec .resolved limit run) fun
    | .normal => printsAll ss
    | .returned _ => .nothing

end

end Stmt

/-- What the body of a function prints with the given fuel. -/
def bodyPrints : Nat → Region → Prints
  | 0, _ => .nothing
  | fuel + 1, r => Stmt.printsAll (runBody .resolved fuel) (bodyPrints fuel) fuel r.body

/-- What the statements of a program print, one after the other. -/
def Run.eachPrints (fuel : Nat) : List Stmt → Prints
  | [] => .nothing
  | s :: ss => (s.prints (runBody .resolved fuel) (bodyPrints fuel) fuel).andThen
    (discard (Run.execute .resolved fuel s)) fun _ => Run.eachPrints fuel ss

end TreeWalk
