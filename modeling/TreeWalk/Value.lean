import TreeWalk.Number.Numeral
import TreeWalk.Syntax.Basic

/-!
Values of running programs. Functions have an identity, which is all that tells two of them apart.
-/

namespace TreeWalk

/-- What can be told of a value without calling it. -/
inductive View where
  | literal (l : Literal)
  | function (isHost : Bool) (identity : Nat) (name : String) (arity : Nat)

/-- The answer of a host function that was given so many arguments: a message of its own if it
fails, or else a constant, one of the arguments, or one more host function. Declared functions it
can only pass on. -/
inductive Reply : Nat → Type where
  | failure {count : Nat} (message : String) : Reply count
  | literal {count : Nat} (l : Literal) : Reply count
  | argument {count : Nat} (i : Fin count) : Reply count
  | function {count : Nat} (name : String) (arity : Nat)
      (body : (arguments : List View) → Reply arguments.length) : Reply count

/-- What a host function does. It sees views of its arguments. -/
abbrev HostBody := (arguments : List View) → Reply arguments.length

/-- A function supplied by the program that embeds the machine. -/
structure HostFunction where
  identity : Nat
  name : String
  arity : Nat
  body : HostBody

abbrev FrameId := Nat

/-- A declared function and the frame that was current where it was declared. -/
structure Closure where
  identity : Nat
  name : Token
  params : List Token
  body : List Stmt
  frame : FrameId

inductive Value where
  | literal (l : Literal)
  | closure (f : Closure)
  | host (f : HostFunction)

def Value.nil : Value := .literal .nil

def Value.view : Value → View
  | .literal l => .literal l
  | .closure f => .function false f.identity f.name.lexeme f.params.length
  | .host f => .function true f.identity f.name f.arity

namespace Literal

def text : Literal → String
  | nil => "nil"
  | bool true => "true"
  | bool false => "false"
  | number x => Numeral.ofValue x
  | string s => s

def typeName : Literal → String
  | nil => "nil"
  | bool _ => "boolean"
  | number _ => "number"
  | string _ => "string"

/-- Only `nil` and `false` do not hold. -/
def truthy : Literal → Bool
  | nil => false
  | bool b => b
  | _ => true

/-- Equality without conversions; numbers compare by value, so NaN differs from itself and the
two zeros are equal. -/
def same : Literal → Literal → Bool
  | nil, nil => true
  | bool a, bool b => a = b
  | number a, number b => a == b
  | string a, string b => a = b
  | _, _ => false

end Literal

namespace View

def text : View → String
  | literal l => l.text
  | function true _ name _ => "<native fn " ++ name ++ ">"
  | function false _ name _ => "<fn " ++ name ++ ">"

def typeName : View → String
  | literal l => l.typeName
  | function _ _ _ _ => "function"

def truthy : View → Bool
  | literal l => l.truthy
  | function _ _ _ _ => true

def same : View → View → Bool
  | literal a, literal b => a.same b
  | function h i _ _, function k j _ _ => h = k && i = j
  | _, _ => false

/-- Name and arity of a function. -/
def signature? : View → Option String
  | literal _ => none
  | function isHost _ name arity =>
    let kind := if isHost then "<native fn " else "<fn "
    some (kind ++ name ++ "/" ++ Numeral.ofNat arity ++ ">")

def arity? : View → Option Nat
  | literal _ => none
  | function _ _ _ arity => some arity

end View

namespace Value

def text (v : Value) : String := v.view.text

def typeName (v : Value) : String := v.view.typeName

def truthy (v : Value) : Bool := v.view.truthy

def same (v w : Value) : Bool := v.view.same w.view

end Value

end TreeWalk
