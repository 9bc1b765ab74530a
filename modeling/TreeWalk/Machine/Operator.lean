import TreeWalk.Machine.Basic

/-!
What operators do to values.
-/

namespace TreeWalk

/-- The result of an operation, or why there is none. -/
abbrev Operation := Except RuntimeCause Value

namespace Operation

def number (x : Float) : Operation := .ok (.literal (.number x))

def truth (b : Bool) : Operation := .ok (.literal (.bool b))

def unary (operator : Kind) (v : Value) : Operation :=
  match operator with
  | .punctuator .minus =>
    match v with
    | .literal (.number x) => number (-x)
    | _ => .error .operandNotNumber
  | .punctuator .bang => truth (!v.truthy)
  | _ => .error .invalidUnaryOperator

/-- An operation on two numbers. -/
def onNumbers (v w : Value) (f : Float → Float → Operation) : Operation :=
  match v, w with
  | .literal (.number x), .literal (.number y) => f x y
  | _, _ => .error .operandsNotNumbers

/-- Numbers are added and strings joined; a number next to a string is taken by its text. -/
def add : Value → Value → Operation
  | .literal (.number x), .literal (.number y) => number (x + y)
  | .literal (.string s), .literal (.string t) => .ok (.literal (.string (s ++ t)))
  | .literal (.string s), .literal (.number y) =>
    .ok (.literal (.string (s ++ Numeral.ofValue y)))
  | .literal (.number x), .literal (.string t) =>
    .ok (.literal (.string (Numeral.ofValue x ++ t)))
  | _, _ => .error .operandsNotAddable

def divide (x y : Float) : Operation :=
  if y == 0 then .error .divisionByZero else number (x / y)

def binary (operator : Kind) (v w : Value) : Operation :=
  match operator with
  | .punctuator .plus => add v w
  | .punctuator .minus => onNumbers v w fun x y => number (x - y)
  | .punctuator .star => onNumbers v w fun x y => number (x * y)
  | .punctuator .slash => onNumbers v w divide
  | .punctuator .greater => onNumbers v w fun x y => truth (x > y)
  | .punctuator .greaterEqual => onNumbers v w fun x y => truth (x ≥ y)
  | .punctuator .less => onNumbers v w fun x y => truth (x < y)
  | .punctuator .lessEqual => onNumbers v w fun x y => truth (x ≤ y)
  | .punctuator .equalEqual => truth (v.same w)
  | .punctuator .bangEqual => truth (!v.same w)
  | _ => .error .invalidBinaryOperator

/-- Whether the left side of a logical operation settles its result. Every operator but the
disjunction is taken for the conjunction. -/
def settles (operator : Token) (left : Value) : Bool :=
  if operator.isKeyword .or_ then left.truthy else !left.truthy

end Operation

/-- A failing operation is reported at its operator. -/
def Run.ofOperation (token : Token) : Operation → Run Value
  | .ok v => pure v
  | .error cause => fail token cause

end TreeWalk
