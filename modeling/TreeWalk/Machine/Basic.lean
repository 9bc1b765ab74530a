import TreeWalk.Resolution
import TreeWalk.Sink
import TreeWalk.Store

/-!
The machine that runs programs, and its elementary actions.
-/

namespace TreeWalk

/-- The frames, which of them is current and which one holds the globals, the hop counts of the
programs run so far, where printed text goes, and the next function identity. -/
structure Machine where
  store : Store
  scope : FrameId
  globals : FrameId
  hops : HopTable
  sink : Sink
  nextIdentity : Nat

/-- Why a run stops early: it failed, or it used up its fuel. -/
inductive Fault where
  | failure (d : Diagnostic)
  | exhausted

/-- How a statement ends: normally, or on the way out of a function with its result. -/
inductive Flow where
  | normal
  | returned (v : Value)

/-- An action of the machine. What it did before a fault stays done. -/
abbrev Run := ExceptT Fault (StateM Machine)

theorem Run.pure_apply {α : Type} (a : α) (m : Machine) : (pure a : Run α) m = (.ok a, m) :=
  rfl

theorem Run.bind_apply {α β : Type} (r : Run α) (f : α → Run β) (m : Machine) :
    (r >>= f) m = match r m with
      | (.ok a, m') => f a m'
      | (.error fault, m') => (.error fault, m') := by
  change ExceptT.bindCont f (r m).1 (r m).2 = _
  cases r m with
  | mk result m' => cases result <;> rfl

theorem Run.get_apply (m : Machine) : (get : Run Machine) m = (.ok m, m) :=
  rfl

theorem Run.discard_eq {α : Type} (r : Run α) : discard r = r >>= fun _ => pure () := by
  change (fun _ => ()) <$> r = _
  rw [map_eq_pure_bind]

/-- The result of a call whose body ended so. -/
def Flow.result : Flow → Value
  | normal => .nil
  | returned v => v

namespace Machine

/-- A machine with nothing defined. -/
def initial (sink : Sink) : Machine where
  store := Store.empty.allocate [] none
  scope := 0
  globals := 0
  hops := ∅
  sink := sink
  nextIdentity := 0

/-- Takes in the hop counts of a program about to run. -/
def addHops (table : HopTable) (m : Machine) : Machine :=
  { m with hops := m.hops ∪ table }

/-- Makes a host function a global. -/
def defineHost (name : String) (arity : Nat) (body : HostBody) (m : Machine) : Machine :=
  { m with
    store := m.store.define m.globals name (.host ⟨m.nextIdentity, name, arity, body⟩)
    nextIdentity := m.nextIdentity + 1 }

end Machine

/-! Actions that change frames take the machine apart, so that the frames are not shared when they
change. -/

namespace Run

def fail {α : Type} (token : Token) (cause : RuntimeCause) : Run α :=
  throw (.failure (.runtime token cause))

def ofExcept {α : Type} : Except Diagnostic α → Run α
  | .ok a => pure a
  | .error d => throw (.failure d)

/-- Changes the frames, or fails to. -/
def onStore (change : Store → Except Diagnostic Unit × Store) : Run Unit :=
  fun ⟨store, scope, globals, hops, sink, nextIdentity⟩ =>
    let (result, store) := change store
    (result.mapError .failure, ⟨store, scope, globals, hops, sink, nextIdentity⟩)

theorem onStore_apply (change : Store → Except Diagnostic Unit × Store) (m : Machine) :
    onStore change m =
      ((change m.store).1.mapError .failure, { m with store := (change m.store).2 }) :=
  rfl

def print (text : String) : Run Unit := fun m =>
  match m.sink.write text with
  | (.ok (), sink) => (.ok (), { m with sink })
  | (.error cause, sink) => (.error (.failure (.sink cause)), { m with sink })

def flush : Run Unit := do
  match (← get).sink.flush with
  | .ok () => return
  | .error cause => throw (.failure (.sink cause))

/-- Binds a name in the current frame. -/
def define (name : Token) (v : Value) : Run Unit :=
  fun ⟨store, scope, globals, hops, sink, nextIdentity⟩ =>
    (.ok (), ⟨store.define scope name.lexeme v, scope, globals, hops, sink, nextIdentity⟩)

/-- Makes the function declared here and now. -/
def makeClosure (name : Token) (params : List Token) (body : List Stmt) : Run Value := fun m =>
  (.ok (.closure ⟨m.nextIdentity, name, params, body, m.scope⟩),
    { m with nextIdentity := m.nextIdentity + 1 })

/-- Makes a host function, different from all others. -/
def makeHost (name : String) (arity : Nat) (body : HostBody) : Run Value := fun m =>
  (.ok (.host ⟨m.nextIdentity, name, arity, body⟩),
    { m with nextIdentity := m.nextIdentity + 1 })

/-- Takes a host function at its word; a failure is located where it was called. -/
def ofReply (paren : Token) (arguments : List Value) :
    Reply (arguments.map Value.view).length → Run Value
  | .failure message => fail paren (.host message)
  | .literal l => return .literal l
  | .argument i => return arguments.get (i.cast (List.length_map Value.view))
  | .function name arity body => makeHost name arity body

/-- Runs an action in a new frame, and afterwards, however it ended, returns to the frame that was
current before. -/
def inNewFrame {α : Type} (bindings : Bindings) (enclosing : FrameId) (action : Run α) : Run α :=
  fun m =>
    let frame := m.store.nextFrame
    let previous := m.scope
    let opened :=
      { m with store := m.store.allocate bindings (some enclosing), scope := frame }
    let (result, closed) := action opened
    (result, { closed with scope := previous })

theorem inNewFrame_apply {α : Type} (bindings : Bindings) (enclosing : FrameId) (action : Run α)
    (m : Machine) :
    inNewFrame bindings enclosing action m =
      let opened :=
        { m with store := m.store.allocate bindings (some enclosing), scope := m.store.nextFrame }
      ((action opened).1, { (action opened).2 with scope := m.scope }) :=
  rfl

end Run

/-- What a run comes upon: an expression about to be evaluated, or a part of the program whose
scope has just been opened. -/
inductive Event where
  | evaluation (e : Expr)
  | entry (r : Region)

/-- How a run finds variables, and what it does at each event. -/
structure Policy where
  observe : Event → Run Unit
  read : NodeId → Token → Run Value
  write : NodeId → Token → Value → Run Unit

namespace Policy

/-- Finds variables by their hop counts, and those without one among the globals. -/
def resolved : Policy where
  observe _ := pure ()
  read id name := do
    let m ← get
    match m.hops[id]? with
    | some distance => Run.ofExcept (m.store.getAt m.scope distance name)
    | none => Run.ofExcept (m.store.get m.globals name)
  write id name v := fun m =>
    match m.hops[id]? with
    | some distance => Run.onStore (Store.assignAt m.scope distance name v) m
    | none => Run.onStore (Store.assign m.globals name v) m

/-- Finds variables by name, walking outward from the current frame. -/
def byName : Policy where
  observe _ := pure ()
  read _ name := do
    let m ← get
    Run.ofExcept (m.store.get m.scope name)
  write _ name v := fun m => Run.onStore (Store.assign m.scope name v) m

end Policy

end TreeWalk
