import TreeWalk.Diagnostic
import TreeWalk.Value

/-!
Frames of variable bindings, each but the outermost enclosed by another. A variable is found by
walking outward from a frame, or by stepping a known number of frames outward.
-/

namespace TreeWalk

abbrev Bindings := List (String × Value)

/-- Binds a name, in place of what it was bound to before. -/
def Bindings.set (name : String) (v : Value) : Bindings → Bindings
  | [] => [(name, v)]
  | (n, old) :: rest => if n = name then (n, v) :: rest else (n, old) :: set name v rest

theorem Bindings.lookup_set (name other : String) (v : Value) (b : Bindings) :
    (b.set name v).lookup other = if other = name then some v else b.lookup other := by
  induction b with
  | nil => simp only [set, List.lookup_cons, List.lookup_nil]; grind
  | cons entry rest ih =>
    obtain ⟨n, old⟩ := entry
    simp only [set]
    split <;> simp only [List.lookup_cons, ih] <;> grind

/-- Binds parameters to arguments, a later parameter in place of an earlier one of its name. -/
def Bindings.ofArguments (params : List Token) (arguments : List Value) : Bindings :=
  (params.zip arguments).foldl (fun b (p, v) => b.set p.lexeme v) []

structure Frame where
  bindings : Bindings
  enclosing : Option FrameId

namespace Frame

def get? (f : Frame) (name : String) : Option Value :=
  f.bindings.lookup name

def set (name : String) (v : Value) (f : Frame) : Frame :=
  { f with bindings := f.bindings.set name v }

end Frame

structure Store where
  frames : Array Frame

namespace Store

def empty : Store := ⟨#[]⟩

/-- The frame that `allocate` makes next. -/
def nextFrame (store : Store) : FrameId :=
  store.frames.size

/-- Adds a frame, enclosed as said. -/
def allocate (bindings : Bindings) (enclosing : Option FrameId) (store : Store) : Store :=
  ⟨store.frames.push ⟨bindings, enclosing⟩⟩

def enclosing? (store : Store) (frame : FrameId) : Option FrameId :=
  store.frames[frame]?.bind Frame.enclosing

/-- What a frame itself binds a name to. -/
def get? (store : Store) (frame : FrameId) (name : String) : Option Value :=
  store.frames[frame]?.bind (·.get? name)

def binds (store : Store) (name : String) (frame : FrameId) : Bool :=
  (store.get? frame name).isSome

/-- Binds a name in a frame, whether or not it was bound there before. -/
def define (frame : FrameId) (name : String) (v : Value) (store : Store) : Store :=
  ⟨store.frames.modify frame (Frame.set name v)⟩

/-- At most so many frames from the given one outward. -/
def chainUpTo (store : Store) : Nat → FrameId → List FrameId
  | 0, _ => []
  | n + 1, frame =>
    frame :: match store.enclosing? frame with
      | some outer => chainUpTo store n outer
      | none => []

/-- The frames from the given one outward. No frame comes twice when enclosing goes in no circle,
so there are no more of them than the store has. -/
def chain (store : Store) (frame : FrameId) : List FrameId :=
  store.chainUpTo store.frames.size frame

/-- The nearest frame outward that binds a name. -/
def holder? (store : Store) (frame : FrameId) (name : String) : Option FrameId :=
  (store.chain frame).find? (store.binds name)

/-- The frame so many steps outward. -/
def ancestor? (store : Store) (frame : FrameId) : Nat → Option FrameId
  | 0 => some frame
  | n + 1 => (store.enclosing? frame).bind fun outer => store.ancestor? outer n

def undefined (name : Token) : Diagnostic :=
  .runtime name (.undefinedVariable name.lexeme)

/-- Reads a name in the one frame given, if it is given and binds the name. -/
def readIn (store : Store) (frame : Option FrameId) (name : Token) : Except Diagnostic Value :=
  match frame.bind (store.get? · name.lexeme) with
  | some v => .ok v
  | none => .error (undefined name)

/-- Changes a name in the one frame given, if it is given and binds the name. -/
def writeIn (frame : Option FrameId) (name : Token) (v : Value) (store : Store) :
    Except Diagnostic Unit × Store :=
  match frame.filter (store.binds name.lexeme) with
  | some f => (.ok (), store.define f name.lexeme v)
  | none => (.error (undefined name), store)

/-- Reads a name where it is found first, walking outward. -/
def get (store : Store) (frame : FrameId) (name : Token) : Except Diagnostic Value :=
  store.readIn (store.holder? frame name.lexeme) name

/-- Changes a name where it is found first, walking outward; never makes a binding. -/
def assign (frame : FrameId) (name : Token) (v : Value) (store : Store) :
    Except Diagnostic Unit × Store :=
  store.writeIn (store.holder? frame name.lexeme) name v

/-- Reads a name exactly so many steps outward. -/
def getAt (store : Store) (frame : FrameId) (distance : Nat) (name : Token) :
    Except Diagnostic Value :=
  store.readIn (store.ancestor? frame distance) name

/-- Changes a name exactly so many steps outward; never makes a binding. -/
def assignAt (frame : FrameId) (distance : Nat) (name : Token) (v : Value) (store : Store) :
    Except Diagnostic Unit × Store :=
  store.writeIn (store.ancestor? frame distance) name v

end Store

end TreeWalk
