import TreeWalk.Proofs.Machine.Basic
import TreeWalk.Proofs.Resolution.Sites

/-! Frames as activations of the parts of programs that have scopes. A frame stays the activation
of the part it was opened for, its bindings only become more, and so whatever the names in view of
a frame stand for is found as many frames outward as there are scopes in between. -/

namespace TreeWalk

/-- For every frame, the parts of a program that have scopes around the place where the frame was
opened, innermost first. The first one is the part that the frame is an activation of. -/
abbrev Context := Labelling (List Region)

/-- From a frame outward stand activations of `regions`, and then the globals. Each binds the
names that were ever ready in the scope in its place, and no name is in a scope that its region does
not declare. -/
inductive Realises (c : Context) (store : Store) (globals : FrameId) :
    List Region → List Scope → FrameId → Prop where
  | globals : Realises c store globals [] [] globals
  | frame {region regions scope scopes frame outer} : c frame = region :: regions →
      store.enclosing? frame = some outer →
      (∀ name, (name, true) ∈ scope → store.binds name frame = true) →
      (∀ name ready, scope.lookup name = some ready → region.Declares name) →
      Realises c store globals regions scopes outer →
      Realises c store globals (region :: regions) (scope :: scopes) frame

namespace Realises

variable {c c' : Context} {store store' : Store} {globals : FrameId} {regions : List Region}
  {scopes : List Scope} {frame : FrameId}

theorem context (h : Realises c store globals regions scopes frame) (hg : c globals = []) :
    c frame = regions := by
  cases h with
  | globals => exact hg
  | frame hc => exact hc

theorem length_eq (h : Realises c store globals regions scopes frame) :
    regions.length = scopes.length := by
  induction h with
  | globals => rfl
  | frame _ _ _ _ _ ih => rw [List.length_cons, List.length_cons, ih]

/-- What a frame sees is not lost. -/
theorem later (h : Realises c store globals regions scopes frame) (hlater : store.Later store')
    (hagree : c.Agree store c') : Realises c' store' globals regions scopes frame := by
  induction h with
  | globals => exact .globals
  | @frame region regions scope scopes frame outer hc he hready hdeclares _ ih =>
    have hlt := Store.lt_nextFrame_of_enclosing? he
    refine .frame ?_ ?_ (fun name hn => hlater.binds _ name (hready name hn)) hdeclares ih
    · rw [hagree frame hlt, hc]
    · rw [hlater.enclosing frame hlt, he]

/-- The chain of a frame has an activation for every region, and the globals at its end. -/
theorem chain (h : Realises c store globals regions scopes frame) (hn : store.Nested)
    (hglobals : globals < store.nextFrame) (houter : store.enclosing? globals = none) :
    ∃ frames, store.chain frame = frames ++ [globals] ∧
      frames.map (fun f => (c f).head?) = regions.map some := by
  induction h with
  | globals => exact ⟨[], Store.chain_of_outermost hglobals houter, rfl⟩
  | @frame region regions scope scopes frame outer hc he _ _ _ ih =>
    obtain ⟨frames, hchain, hmap⟩ := ih
    refine ⟨frame :: frames, ?_, ?_⟩
    · rw [hn.chain_of_enclosing? he, hchain, List.cons_append]
    · rw [List.map_cons, List.map_cons, hmap, hc, List.head?_cons]

/-- A name found so many scopes outward is declared by the region there, and bound by its
activation if it was ever ready. -/
theorem of_hops (h : Realises c store globals regions scopes frame) {name : String} {d : Nat}
    (hd : Scope.hops? scopes name = some d) :
    ∃ region f scope ready, regions[d]? = some region ∧ store.ancestor? frame d = some f ∧
      scopes[d]? = some scope ∧ scope.lookup name = some ready ∧ region.Declares name ∧
      (c f).head? = some region ∧ ((name, true) ∈ scope → store.binds name f = true) := by
  induction h generalizing d with
  | globals => cases hd
  | @frame region regions scope scopes frame outer hc he hready hdeclares hrest ih =>
    rw [Scope.hops?, List.findIdx?_cons] at hd
    split at hd
    · next hfound =>
      obtain rfl : 0 = d := by simpa using hd
      obtain ⟨ready, hlookup⟩ := Option.isSome_iff_exists.mp hfound
      exact ⟨region, frame, scope, ready, rfl, rfl, rfl, hlookup, hdeclares name ready hlookup,
        by rw [hc, List.head?_cons], hready name⟩
    · obtain ⟨d', hd', rfl⟩ := Option.map_eq_some_iff.mp hd
      obtain ⟨region', f, scope', ready, hregion, hf, hscope, hrest⟩ := ih hd'
      refine ⟨region', f, scope', ready, hregion, ?_, hscope, hrest⟩
      rw [Store.ancestor?, he]
      exact hf

/-- A name may be noted that the region declares, and noted as ready once the frame binds it. -/
theorem note (h : Realises c store globals regions scopes frame) {name : Token} {ready : Bool}
    (hdeclares : ∀ r ∈ regions.head?, r.Declares name.lexeme)
    (hbinds : ready = true → store.binds name.lexeme frame = true) :
    Realises c store globals regions (Scope.note name ready scopes) frame := by
  cases h with
  | globals => exact .globals
  | @frame region regions scope scopes frame outer hc he hready hnames hrest =>
    refine .frame hc he (fun other hn => ?_) (fun other ready hn => ?_) hrest
    · rcases List.mem_cons.mp hn with hn | hn
      · cases hn
        exact hbinds rfl
      · exact hready other hn
    · rw [List.lookup_cons] at hn
      split at hn
      · next heq =>
        rw [eq_of_beq heq]
        exact hdeclares region rfl
      · exact hnames other ready hn

/-- A name that is declared but not ready takes nothing away. -/
theorem note_unready (h : Realises c store globals regions scopes frame) {name : Token}
    (hdeclares : ∀ r ∈ regions.head?, r.Declares name.lexeme) :
    Realises c store globals regions (Scope.note name false scopes) frame :=
  h.note hdeclares nofun

theorem note_ready (h : Realises c store globals regions scopes frame) {name : Token}
    (hdeclares : ∀ r ∈ regions.head?, r.Declares name.lexeme)
    (hbinds : store.binds name.lexeme frame = true) :
    Realises c store globals regions (Scope.note name true scopes) frame :=
  h.note hdeclares fun _ => hbinds

end Realises

/-- A value that is about to be assigned to a variable. -/
structure Write where
  id : NodeId
  name : Token
  value : Value

section Sound

variable (ps : List Program)

/-- A function carries code of one of the programs, and its frame realises the place of the code. -/
def Value.Placed (c : Context) (store : Store) (globals : FrameId) : Value → Prop
  | .literal _ => True
  | .host _ => True
  | .closure f => ∃ p ∈ ps, ∃ regions scopes, Realises c store globals regions scopes f.frame ∧
      p.HasBody (⟨f.params, f.body⟩ :: regions) true (Region.scopes f.params scopes) f.body ∧
        (regions, .function f.name f.params f.body) ∈ p.places

/-- What holds of a machine whenever it runs code of some programs. An activation binds no name that
its region does not declare. -/
structure Machine.Sound (c : Context) (m : Machine) : Prop where
  nested : m.store.Nested
  globals_lt : m.globals < m.store.nextFrame
  outermost : m.store.enclosing? m.globals = none
  globals_nil : c m.globals = []
  values : ∀ f name v, m.store.get? f name = some v → v.Placed ps c m.store m.globals
  bounded : ∀ f, ∀ r ∈ (c f).head?, ∀ name, m.store.binds name f = true → r.Declares name
  hops : ∀ p ∈ ps, ∀ id ∈ p.ids, m.hops[id]? = p.resolution.hops[id]?

/-- How a machine is when it comes upon an event. Before an expression is evaluated, the frames in
view are activations of exactly the regions around the expression, and a variable with a hop count
is bound where the hop count leads, so that reading it succeeds. -/
def Event.Holds (c : Context) (m : Machine) : Event → Prop
  | .entry r => (c m.scope).head? = some r
  | .evaluation e => ∃ p ∈ ps, ∃ regions frames, (regions, e) ∈ p.sites ∧
      m.store.chain m.scope = frames ++ [m.globals] ∧
      frames.map (fun f => (c f).head?) = regions.map some ∧
      ∀ id name, e = .var id name → m.hops[id]? = p.resolution.hops[id]? ∧
        ∀ d, p.resolution.hops[id]? = some d → ∃ frame region v, frames[d]? = some frame ∧
          regions[d]? = some region ∧ region.Declares name.lexeme ∧
          m.store.get? frame name.lexeme = some v ∧ m.store.getAt m.scope d name = .ok v

/-- How a machine is when it comes to a write. Where the hop count leads stands an activation of a
region that declares the name, and it binds the name already, unless the assignment is part of the
initializer with which the region declares the name first. -/
def Write.Holds (c : Context) (m : Machine) (w : Write) : Prop :=
  ∃ p ∈ ps, ∃ regions e, (regions, .assign w.id w.name e) ∈ p.sites ∧
    m.hops[w.id]? = p.resolution.hops[w.id]? ∧
      ∀ d, p.resolution.hops[w.id]? = some d → ∃ frame region,
        m.store.ancestor? m.scope d = some frame ∧ regions[d]? = some region ∧
          (c frame).head? = some region ∧ region.Declares w.name.lexeme ∧
            (m.store.binds w.name.lexeme frame = true ∨
              d = 0 ∧ region.Initializes w.name.lexeme (.assign w.id w.name e))

/-- What an event relies on without a check of its own: hop counts do not lead beyond the globals,
and a body is entered with as many arguments as it has parameters. -/
def Event.Fits (m : Machine) : Event → Prop
  | .entry r => ∃ arguments : List Value, arguments.length = r.params.length ∧
      m.store.frames[m.scope]?.map Frame.bindings = some (.ofArguments r.params arguments)
  | .evaluation e => ∀ id name, e.mention? = some (id, name) →
      ∀ d, m.hops[id]? = some d → d < (m.store.chain m.scope).length

def Write.Fits (m : Machine) (w : Write) : Prop :=
  ∀ d, m.hops[w.id]? = some d → d < (m.store.chain m.scope).length

/-- A policy that finds variables by their hop counts and lets every event and write pass that
holds and fits. -/
structure Policy.Watches (c : Context) (policy : Policy) : Prop where
  read : policy.read = Policy.resolved.read
  write : ∀ w m, Write.Holds ps c m w → w.Fits m →
    policy.write w.id w.name w.value m = Policy.resolved.write w.id w.name w.value m
  observe : ∀ event m, event.Holds ps c m → event.Fits m → policy.observe event m = (.ok (), m)

end Sound

namespace Machine.Later

variable {m m' : Machine}

theorem realises (h : m.Later m') {c c' : Context} {regions : List Region} {scopes : List Scope}
    (hr : Realises c m.store m.globals regions scopes m.scope) (hagree : c.Agree m.store c') :
    Realises c' m'.store m'.globals regions scopes m'.scope := by
  rw [h.globals, h.scope]
  exact hr.later h.store hagree

end Machine.Later

theorem Value.Placed.later {ps : List Program} {c c' : Context} {store store' : Store}
    {globals : FrameId} {v : Value} (h : v.Placed ps c store globals)
    (hlater : store.Later store') (hagree : c.Agree store c') : v.Placed ps c' store' globals := by
  cases v with
  | literal _ => trivial
  | host _ => trivial
  | closure f =>
    obtain ⟨p, hp, regions, scopes, hr, hcode⟩ := h
    exact ⟨p, hp, regions, scopes, hr.later hlater hagree, hcode⟩

theorem Machine.Later.placed {m m' : Machine} (h : m.Later m') {ps : List Program}
    {c c' : Context} {v : Value} (hv : v.Placed ps c m.store m.globals)
    (hagree : c.Agree m.store c') : v.Placed ps c' m'.store m'.globals := by
  rw [h.globals]
  exact hv.later h.store hagree

end TreeWalk
