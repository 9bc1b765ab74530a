import TreeWalk.Value

/-!
A few host functions, by name.
-/

namespace TreeWalk.HostCatalog

/-- A host function's usual arity and what it does. -/
structure Entry where
  arity : Nat
  body : HostBody

/-- Twice a number. -/
def double : Entry where
  arity := 1
  body
    | .literal (.number x) :: _ => .literal (.number (x * 2))
    | _ => .failure "double expects a number."

/-- The name of a value's type. -/
def typeOf : Entry where
  arity := 1
  body
    | v :: _ => .literal (.string v.typeName)
    | [] => .failure "typeof of nothing"

/-- The text that printing a value gives. -/
def str : Entry where
  arity := 1
  body
    | v :: _ => .literal (.string v.text)
    | [] => .failure "str of nothing"

/-- Whether two values are equal. -/
def same : Entry where
  arity := 2
  body
    | v :: w :: _ => .literal (.bool (v.same w))
    | _ => .failure "same expects two values"

def fail : Entry where
  arity := 0
  body _ := .failure "native failure"

/-- How many arguments there are. -/
def count : Entry where
  arity := 0
  body arguments := .literal (.number (Float.ofNat arguments.length))

/-- The last argument. -/
def last : Entry where
  arity := 1
  body
    | [] => .failure "last of nothing"
    | _ :: rest => .argument (Fin.last rest.length)

def find? (name : String) : Option Entry :=
  [("double", double), ("typeof", typeOf), ("str", str), ("same", same), ("fail", fail),
    ("count", count), ("last", last)].lookup name

end TreeWalk.HostCatalog
