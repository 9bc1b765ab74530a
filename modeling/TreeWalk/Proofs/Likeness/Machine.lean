import TreeWalk.Proofs.Likeness.Tree
import TreeWalk.Proofs.Machine.Basic

/-! Machines that are alike: frame by frame they bind alike values to names that are spelled as
the sort of the frame says. -/

namespace TreeWalk

/-- The frames outward of a frame are of the sorts that an outlook tells. -/
def Outlook.Fits (o : Outlook) (store : Store) (sorts : Labelling Bool) (frame : FrameId) : Prop :=
  ∀ d g, store.ancestor? frame d = some g → sorts g = o d

/-- Values that cannot be told apart but by running them. -/
inductive Value.Alike (l : Likeness) (sorts : Labelling Bool) (store : Store) :
    Value → Value → Prop where
  | literal {v} : Value.Alike l sorts store (.literal v) (.literal v)
  | host {f} : Value.Alike l sorts store (.host f) (.host f)
  | closure {f f' : Closure} {sort o} : f.frame < store.nextFrame → f.frame = f'.frame →
      f.identity = f'.identity → l.Token f.name f'.name → o.Fits store sorts f.frame →
      Region.Alike l sort o ⟨f.params, f.body⟩ ⟨f'.params, f'.body⟩ →
      Value.Alike l sorts store (.closure f) (.closure f')

/-- Two machines in the same place of the same run. Both have the same frames, and nothing but the
spelling of names and the code of functions differs in them. -/
structure Machine.Alike (l : Likeness) (sorts : Labelling Bool) (m m' : Machine) : Prop where
  nextFrame : m.store.nextFrame = m'.store.nextFrame
  enclosing : ∀ f, m.store.enclosing? f = m'.store.enclosing? f
  scope : m.scope = m'.scope
  globals : m.globals = m'.globals
  sink : m.sink = m'.sink
  nextIdentity : m.nextIdentity = m'.nextIdentity
  hops : ∀ {id id' d}, l.node id id' d → m.hops[id]? = d ∧ m'.hops[id']? = d
  values : ∀ f {n n'}, l.spelled (sorts f) n n' →
    Option.Rel (Value.Alike l sorts m.store) (m.store.get? f n) (m'.store.get? f n')
  nested : m.store.Nested
  scope_lt : m.scope < m.store.nextFrame
  globals_lt : m.globals < m.store.nextFrame
  outermost : m.store.enclosing? m.globals = none
  globals_sort : sorts m.globals = false

/-- A machine that has all the frames it speaks of. -/
structure Machine.Grounded (m : Machine) : Prop where
  nested : m.store.Nested
  scope_lt : m.scope < m.store.nextFrame
  globals_lt : m.globals < m.store.nextFrame
  outermost : m.store.enclosing? m.globals = none
  closures : ∀ {f name c}, m.store.get? f name = some (.closure c) → c.frame < m.store.nextFrame

/-- In frames of one sort, names are told apart on one side exactly if they are on the other. -/
def Likeness.Faithful (l : Likeness) : Prop :=
  ∀ {sort n n' k k'}, l.spelled sort n n' → l.spelled sort k k' → (n = k ↔ n' = k')

namespace Outlook.Fits

variable {o : Outlook} {store store' : Store} {sorts sorts' : Labelling Bool} {frame : FrameId}

theorem later (h : o.Fits store sorts frame) (hn : store.Nested) (hf : frame < store.nextFrame)
    (hlater : store.Later store') (hagree : sorts.Agree store sorts') :
    o.Fits store' sorts' frame := by
  intro d g hg
  rw [hlater.ancestor? hn hf] at hg
  rw [hagree g (hn.ancestor?_lt hf hg)]
  exact h d g hg

/-- A new frame is seen first, and behind it what its enclosing frame sees. -/
theorem enter {bindings : Bindings} {sort : Bool} (h : o.Fits store sorts frame)
    (hn : store.Nested) (hf : frame < store.nextFrame) :
    (o.enter sort).Fits (store.allocate bindings (some frame)) (sorts.extend store.nextFrame sort)
      store.nextFrame := by
  intro d g hg
  cases d with
  | zero =>
    cases hg
    exact if_pos rfl
  | succ d =>
    rw [Store.ancestor?, Store.enclosing?_allocate_self] at hg
    have hlater := Store.Later.allocate store bindings (some frame)
    exact h.later hn hf hlater (sorts.agree_extend store sort) d g hg

/-- The sort of the current frame itself. -/
theorem current (h : o.Fits store sorts frame) : sorts frame = o 0 :=
  h 0 frame rfl

end Outlook.Fits

namespace Value.Alike

variable {l : Likeness} {store store' : Store} {sorts sorts' : Labelling Bool} {v v' w w' : Value}

theorem later (h : Value.Alike l sorts store v v') (hn : store.Nested)
    (hlater : store.Later store') (hagree : sorts.Agree store sorts') :
    Value.Alike l sorts' store' v v' := by
  cases h with
  | literal => exact .literal
  | host => exact .host
  | closure hlt hframe hidentity hname hfits hregion =>
    exact .closure (Nat.lt_of_lt_of_le hlt hlater.le) hframe hidentity hname
      (hfits.later hn hlt hlater hagree) hregion

theorem mono {l' : Likeness} (hl : l.Le l') (h : Value.Alike l sorts store v v') :
    Value.Alike l' sorts store v v' := by
  cases h with
  | literal => exact .literal
  | host => exact .host
  | closure hlt hframe hidentity hname hfits hregion =>
    exact .closure hlt hframe hidentity (hname.mono hl) hfits (hregion.mono hl)

theorem view (h : Value.Alike l sorts store v v') : v.view = v'.view := by
  cases h with
  | literal => rfl
  | host => rfl
  | closure _ _ hidentity hname _ hregion =>
    rw [Value.view, Value.view, hidentity, hname.lexeme, hregion.params.length_eq]

theorem truthy (h : Value.Alike l sorts store v v') : v.truthy = v'.truthy := by
  rw [Value.truthy, h.view, Value.truthy]

theorem text (h : Value.Alike l sorts store v v') : v.text = v'.text := by
  rw [Value.text, h.view, Value.text]

theorem settles (h : Value.Alike l sorts store v v') {operator operator' : Token}
    (hoperator : l.Token operator operator') :
    Operation.settles operator v = Operation.settles operator' v' := by
  rw [Operation.settles, Operation.settles, h.truthy, Token.isKeyword, hoperator.kind]
  rfl

end Value.Alike

/-- Machines that are alike are so under a likeness that allows more identities and lines, with any
hop counts that agree on those. -/
theorem Machine.Alike.rehop {l l' : Likeness} {sorts : Labelling Bool} {m m' : Machine}
    (h : m.Alike l sorts m') (hl : l.Le l')
    (hspelled : ∀ {sort n n'}, l'.spelled sort n n' → l.spelled sort n n') {hops hops' : HopTable}
    (hhops : ∀ {id id' d}, l'.node id id' d → hops[id]? = d ∧ hops'[id']? = d) :
    ({ m with hops } : Machine).Alike l' sorts { m' with hops := hops' } where
  nextFrame := h.nextFrame
  enclosing := h.enclosing
  scope := h.scope
  globals := h.globals
  sink := h.sink
  nextIdentity := h.nextIdentity
  hops := hhops
  values f n n' hn := by
    have hvalues := h.values f (hspelled hn)
    dsimp only
    generalize m.store.get? f n = v, m'.store.get? f n' = v' at hvalues
    cases hvalues with
    | none => exact .none
    | some hv => exact .some (hv.mono hl)
  nested := h.nested
  scope_lt := h.scope_lt
  globals_lt := h.globals_lt
  outermost := h.outermost
  globals_sort := h.globals_sort

/-- From the globals only the globals are seen, and they are of the first sort. -/
theorem Machine.Alike.plain_fits {l : Likeness} {sorts : Labelling Bool} {m m' : Machine}
    (h : m.Alike l sorts m') : Outlook.plain.Fits m.store sorts m.globals := by
  intro d g hg
  cases d with
  | zero =>
    cases hg
    exact h.globals_sort
  | succ d =>
    rw [Store.ancestor?, h.outermost] at hg
    cases hg

theorem Outlook.plain_fits {store : Store} {frame : FrameId} :
    plain.Fits store (fun _ => false) frame :=
  fun _ _ _ => rfl

/-- A machine is alike to itself, also with other hop counts, as far as the code of its functions
is found in the same places. -/
theorem Machine.Grounded.alike {m : Machine} (h : m.Grounded) {l : Likeness}
    (hline : ∀ n, l.line n n) (hspelled : ∀ {n n'}, l.spelled false n n' ↔ n = n')
    {hops hops' : HopTable}
    (hhops : ∀ {id id' d}, l.node id id' d → hops[id]? = d ∧ hops'[id']? = d)
    (hcode : ∀ {f name c}, m.store.get? f name = some (.closure c) →
      ∀ id ∈ Stmt.idsOfAll c.body, ∃ d, l.node id id d) :
    ({ m with hops } : Machine).Alike l (fun _ => false) { m with hops := hops' } where
  nextFrame := rfl
  enclosing _ := rfl
  scope := rfl
  globals := rfl
  sink := rfl
  nextIdentity := rfl
  hops := hhops
  values f n n' hn := by
    obtain rfl := hspelled.mp hn
    dsimp only
    cases hv : m.store.get? f n with
    | none => exact .none
    | some v =>
      refine .some ?_
      cases v with
      | literal _ => exact .literal
      | host _ => exact .host
      | closure c =>
        have hname (t : Token) : l.Name false t t := ⟨rfl, hspelled.mpr rfl, hline _⟩
        have hparams : List.Forall₂ (l.Name false) c.params c.params :=
          List.forall₂_same.mpr fun t _ => hname t
        have hbody : Stmt.AllAlike l .plain c.body c.body :=
          Stmt.allAlike_self hline (fun n _ => hspelled.mpr rfl) (hcode hv)
        rw [← Outlook.enter_plain] at hbody
        exact .closure (h.closures hv) rfl rfl ⟨rfl, rfl, hline _⟩ Outlook.plain_fits
          ⟨hparams, hbody⟩
  nested := h.nested
  scope_lt := h.scope_lt
  globals_lt := h.globals_lt
  outermost := h.outermost
  globals_sort := rfl

end TreeWalk
