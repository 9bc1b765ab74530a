import TreeWalk.Proofs.Machine.Basic
import TreeWalk.Proofs.Padding.Resolution

/-! Machines of which the second has further frames between those of the first. -/

namespace TreeWalk

namespace Gaps

/-- What is outward of a frame of the first store is outward of a frame of the second one, as far
as the gaps say. The labels tell where the frames of the first store are in the second one. -/
def Sees (g : Gaps) (φ : Labelling FrameId) (store store' : Store) (frame frame' : FrameId) :
    Prop :=
  ∀ d, store'.ancestor? frame' (g d) = (store.ancestor? frame d).map φ

namespace Sees

variable {g : Gaps} {φ φ₁ : Labelling FrameId} {store store' store₁ store₁' : Store}
  {frame frame' : FrameId}

theorem later (h : g.Sees φ store store' frame frame') (hn : store.Nested) (hn' : store'.Nested)
    (hf : frame < store.nextFrame) (hf' : frame' < store'.nextFrame) (hlater : store.Later store₁)
    (hlater' : store'.Later store₁') (hagree : φ.Agree store φ₁) :
    g.Sees φ₁ store₁ store₁' frame frame' := by
  intro d
  rw [hlater.ancestor? hn hf, hlater'.ancestor? hn' hf', h d]
  cases hg : store.ancestor? frame d with
  | none => rfl
  | some f => rw [Option.map_some, Option.map_some, hagree f (hn.ancestor?_lt hf hg)]

/-- From a frame that both open. -/
theorem enter (h : g.Sees φ store store' frame frame') (hn : store.Nested) (hn' : store'.Nested)
    (hf : frame < store.nextFrame) (hf' : frame' < store'.nextFrame)
    (bindings bindings' : Bindings) :
    g.enter.Sees (φ.extend store.nextFrame store'.nextFrame)
      (store.allocate bindings (some frame)) (store'.allocate bindings' (some frame'))
      store.nextFrame store'.nextFrame := by
  have hopened := h.later hn hn' hf hf' (.allocate store bindings (some frame))
    (.allocate store' bindings' (some frame')) (φ.agree_extend store store'.nextFrame)
  intro d
  cases d with
  | zero =>
    have hself : φ.extend store.nextFrame store'.nextFrame store.nextFrame = store'.nextFrame :=
      if_pos rfl
    exact congrArg some hself.symm
  | succ d =>
    rw [Gaps.enter, Store.ancestor?, Store.ancestor?, Store.enclosing?_allocate_self,
      Store.enclosing?_allocate_self]
    exact hopened d

/-- From a frame that only the second one opens. -/
theorem under (h : g.Sees φ store store' frame frame') (hn' : store'.Nested)
    (hf' : frame' < store'.nextFrame) (bindings : Bindings) :
    g.under.Sees φ store (store'.allocate bindings (some frame')) frame store'.nextFrame := by
  intro d
  have hlater := Store.Later.allocate store' bindings (some frame')
  rw [Gaps.under, Store.ancestor?, Store.enclosing?_allocate_self, Option.bind_some,
    hlater.ancestor? hn' hf']
  exact h d

/-- Without a gap right here. -/
theorem current (h : g.Sees φ store store' frame frame') (hg : g 0 = 0) : frame' = φ frame := by
  have h0 := h 0
  rw [hg] at h0
  exact Option.some.inj h0

end Sees

end Gaps

/-- Values that cannot be told apart but by running them. The body of a function may have further
blocks, and its frame stands behind gaps. -/
inductive Value.Padded (table table' : HopTable) (φ : Labelling FrameId) (store store' : Store) :
    Value → Value → Prop where
  | literal {v} : Value.Padded table table' φ store store' (.literal v) (.literal v)
  | host {f} : Value.Padded table table' φ store store' (.host f) (.host f)
  | closure {g : Gaps} {identity name params body body' frame frame'} :
      frame < store.nextFrame → frame' < store'.nextFrame →
      g.Sees φ store store' frame frame' →
      Stmt.AllPadded (table.Padded table') g.enter body body' →
      Value.Padded table table' φ store store' (.closure ⟨identity, name, params, body, frame⟩)
        (.closure ⟨identity, name, params, body', frame'⟩)

/-- A machine that has all the frames it speaks of, but for its functions. -/
structure Machine.Rooted (m : Machine) : Prop where
  nested : m.store.Nested
  scope_lt : m.scope < m.store.nextFrame
  globals_lt : m.globals < m.store.nextFrame
  outermost : m.store.enclosing? m.globals = none

/-- Two machines in the same place of two runs. Every frame of the first one is a frame of the
second one, with the same names in it. -/
structure Machine.Padded (table table' : HopTable) (φ : Labelling FrameId) (m m' : Machine) :
    Prop where
  rooted : m.Rooted
  rooted' : m'.Rooted
  hops : m.hops = table
  hops' : m'.hops = table'
  globals : m'.globals = φ m.globals
  sink : m'.sink = m.sink
  nextIdentity : m'.nextIdentity = m.nextIdentity
  lt : ∀ f < m.store.nextFrame, φ f < m'.store.nextFrame
  injective : ∀ f < m.store.nextFrame, ∀ f' < m.store.nextFrame, φ f = φ f' → f = f'
  values : ∀ f < m.store.nextFrame, ∀ name,
    Option.Rel (Value.Padded table table' φ m.store m'.store) (m.store.get? f name)
      (m'.store.get? (φ f) name)

/-- Two machines later in their runs. Frames stay where they are. -/
structure Machine.BothLater (φ : Labelling FrameId) (m m' : Machine) (φ₁ : Labelling FrameId)
    (m₁ m₁' : Machine) : Prop where
  agree : φ.Agree m.store φ₁
  later : m.Later m₁
  later' : m'.Later m₁'

variable {table table' : HopTable} {φ φ₁ φ₂ : Labelling FrameId} {m m' m₁ m₁' m₂ m₂' : Machine}
  {g : Gaps}

namespace Machine.BothLater

theorem refl (φ : Labelling FrameId) (m m' : Machine) : BothLater φ m m' φ m m' :=
  ⟨.refl, .refl m, .refl m'⟩

theorem trans (h : BothLater φ m m' φ₁ m₁ m₁') (h' : BothLater φ₁ m₁ m₁' φ₂ m₂ m₂') :
    BothLater φ m m' φ₂ m₂ m₂' :=
  ⟨h.agree.trans h.later.store h'.agree, h.later.trans h'.later, h.later'.trans h'.later'⟩

end Machine.BothLater

/-- What is seen from the current frames goes on to be seen. -/
theorem Gaps.Sees.kept (h : g.Sees φ m.store m'.store m.scope m'.scope)
    (hm : m.Padded table table' φ m') (hlater : Machine.BothLater φ m m' φ₁ m₁ m₁') :
    g.Sees φ₁ m₁.store m₁'.store m₁.scope m₁'.scope := by
  rw [hlater.later.scope, hlater.later'.scope]
  exact h.later hm.rooted.nested hm.rooted'.nested hm.rooted.scope_lt hm.rooted'.scope_lt
    hlater.later.store hlater.later'.store hlater.agree

namespace Value.Padded

variable {store store' store₁ store₁' : Store} {v v' w w' : Value}

theorem later (h : Value.Padded table table' φ store store' v v') (hn : store.Nested)
    (hn' : store'.Nested) (hlater : store.Later store₁) (hlater' : store'.Later store₁')
    (hagree : φ.Agree store φ₁) : Value.Padded table table' φ₁ store₁ store₁' v v' := by
  cases h with
  | literal => exact .literal
  | host => exact .host
  | closure hlt hlt' hsees hbody =>
    exact .closure (Nat.lt_of_lt_of_le hlt hlater.le) (Nat.lt_of_lt_of_le hlt' hlater'.le)
      (hsees.later hn hn' hlt hlt' hlater hlater' hagree) hbody

theorem kept (h : Value.Padded table table' φ m.store m'.store v v')
    (hm : m.Padded table table' φ m') (hlater : Machine.BothLater φ m m' φ₁ m₁ m₁') :
    Value.Padded table table' φ₁ m₁.store m₁'.store v v' :=
  h.later hm.rooted.nested hm.rooted'.nested hlater.later.store hlater.later'.store hlater.agree

theorem view (h : Value.Padded table table' φ store store' v v') : v.view = v'.view := by
  cases h <;> rfl

theorem truthy (h : Value.Padded table table' φ store store' v v') : v.truthy = v'.truthy := by
  rw [Value.truthy, h.view, Value.truthy]

theorem text (h : Value.Padded table table' φ store store' v v') : v.text = v'.text := by
  rw [Value.text, h.view, Value.text]

theorem settles (h : Value.Padded table table' φ store store' v v') (operator : Token) :
    Operation.settles operator v = Operation.settles operator v' := by
  rw [Operation.settles, Operation.settles, h.truthy]

end Value.Padded

namespace Machine.Rooted

theorem of_store {store : Store} (h : m.Rooted) (hnext : store.nextFrame = m.store.nextFrame)
    (he : ∀ f, store.enclosing? f = m.store.enclosing? f) :
    ({ m with store } : Machine).Rooted where
  nested f f' hf := h.nested f f' (by rwa [he] at hf)
  scope_lt := hnext ▸ h.scope_lt
  globals_lt := hnext ▸ h.globals_lt
  outermost := (he _).trans h.outermost

theorem opened (h : m.Rooted) {bindings : Bindings} {enclosing : FrameId}
    (hlt : enclosing < m.store.nextFrame) : (m.opened bindings enclosing).Rooted where
  nested := h.nested.allocate fun f hf => by
    cases hf
    exact hlt
  scope_lt := by
    simp only [Machine.opened, Store.nextFrame_allocate]
    exact Nat.lt_succ_self _
  globals_lt := Nat.lt_of_lt_of_le h.globals_lt (Store.Later.allocate m.store _ _).le
  outermost :=
    ((Store.Later.allocate m.store _ _).enclosing _ h.globals_lt).trans h.outermost

/-- With another frame current. -/
theorem inFrame (h : m.Rooted) {scope : FrameId} (hlt : scope < m.store.nextFrame) :
    ({ m with scope } : Machine).Rooted :=
  ⟨h.nested, hlt, h.globals_lt, h.outermost⟩

end Machine.Rooted

namespace Machine.Padded

/-- Binding a name in a frame and in its place. -/
theorem define (h : m.Padded table table' φ m') {frame : FrameId}
    (hf : frame < m.store.nextFrame) {name : String} {v v' : Value}
    (hv : Value.Padded table table' φ m.store m'.store v v') :
    ({ m with store := m.store.define frame name v } : Machine).Padded table table' φ
      { m' with store := m'.store.define (φ frame) name v' } := by
  have hlater := Store.Later.define m.store frame name v
  have hlater' := Store.Later.define m'.store (φ frame) name v'
  have hkept {w w' : Value} (hw : Value.Padded table table' φ m.store m'.store w w') :=
    hw.later h.rooted.nested h.rooted'.nested hlater hlater' .refl
  refine ⟨h.rooted.of_store Store.nextFrame_define fun _ => Store.enclosing?_define,
    h.rooted'.of_store Store.nextFrame_define fun _ => Store.enclosing?_define, h.hops, h.hops',
    h.globals, h.sink, h.nextIdentity, ?_, ?_, ?_⟩
  · simpa only [Store.nextFrame_define] using h.lt
  · simpa only [Store.nextFrame_define] using h.injective
  · intro f hlt other
    rw [Store.nextFrame_define] at hlt
    have hother := h.values f hlt other
    rw [Store.get?_define, Store.get?_define]
    by_cases hhere : frame = f ∧ other = name ∧ f < m.store.nextFrame
    · obtain ⟨rfl, rfl, -⟩ := hhere
      rw [if_pos ⟨rfl, rfl, hlt⟩, if_pos ⟨rfl, rfl, h.lt _ hlt⟩]
      exact .some (hkept hv)
    · have hnot : ¬(φ frame = φ f ∧ other = name ∧ φ f < m'.store.nextFrame) := by
        rintro ⟨hsame, hname, -⟩
        exact hhere ⟨h.injective frame hf f hlt hsame, hname, hlt⟩
      rw [if_neg hhere, if_neg hnot]
      generalize m.store.get? f other = o, m'.store.get? (φ f) other = o' at hother
      cases hother with
      | none => exact .none
      | some hw => exact .some (hkept hw)

/-- Both sides draw a function identity. -/
theorem drawn (h : m.Padded table table' φ m') :
    ({ m with nextIdentity := m.nextIdentity + 1 } : Machine).Padded table table' φ
      { m' with nextIdentity := m'.nextIdentity + 1 } :=
  ⟨⟨h.rooted.nested, h.rooted.scope_lt, h.rooted.globals_lt, h.rooted.outermost⟩,
    ⟨h.rooted'.nested, h.rooted'.scope_lt, h.rooted'.globals_lt, h.rooted'.outermost⟩, h.hops,
    h.hops', h.globals, h.sink, congrArg Nat.succ h.nextIdentity, h.lt, h.injective, h.values⟩

/-- Opening a frame on both sides, with the same names in it. -/
theorem opened (h : m.Padded table table' φ m') {bindings bindings' : Bindings}
    {enclosing enclosing' : FrameId} (hlt : enclosing < m.store.nextFrame)
    (hlt' : enclosing' < m'.store.nextFrame)
    (hbindings : ∀ name, Option.Rel (Value.Padded table table' φ m.store m'.store)
      (bindings.lookup name) (bindings'.lookup name)) :
    (m.opened bindings enclosing).Padded table table'
      (φ.extend m.store.nextFrame m'.store.nextFrame) (m'.opened bindings' enclosing') := by
  have hlater := Store.Later.allocate m.store bindings (some enclosing)
  have hlater' := Store.Later.allocate m'.store bindings' (some enclosing')
  have hagree := φ.agree_extend m.store m'.store.nextFrame
  have hkept {o o' : Option Value}
      (ho : Option.Rel (Value.Padded table table' φ m.store m'.store) o o') :
      Option.Rel (Value.Padded table table' (φ.extend m.store.nextFrame m'.store.nextFrame)
        (m.opened bindings enclosing).store (m'.opened bindings' enclosing').store) o o' := by
    cases ho with
    | none => exact .none
    | some hw =>
      exact .some (hw.later h.rooted.nested h.rooted'.nested hlater hlater' hagree)
  have hnew : φ.extend m.store.nextFrame m'.store.nextFrame m.store.nextFrame =
      m'.store.nextFrame := if_pos rfl
  have hcases {f : FrameId} (hf : f < (m.opened bindings enclosing).store.nextFrame) :
      f < m.store.nextFrame ∨ f = m.store.nextFrame := by
    simp only [Machine.opened, Store.nextFrame_allocate] at hf
    exact Nat.lt_succ_iff_lt_or_eq.mp hf
  refine ⟨h.rooted.opened hlt, h.rooted'.opened hlt', h.hops, h.hops',
    h.globals.trans (hagree _ h.rooted.globals_lt).symm, h.sink, h.nextIdentity, ?_, ?_, ?_⟩
  · intro f hf
    simp only [Machine.opened, Store.nextFrame_allocate]
    rcases hcases hf with hf | rfl
    · rw [hagree f hf]
      exact Nat.lt_succ_of_lt (h.lt f hf)
    · rw [hnew]
      exact Nat.lt_succ_self _
  · intro f hf f' hf' hsame
    rcases hcases hf with hf | rfl <;> rcases hcases hf' with hf' | rfl
    · rw [hagree f hf, hagree f' hf'] at hsame
      exact h.injective f hf f' hf' hsame
    · rw [hagree f hf, hnew] at hsame
      exact absurd hsame (Nat.ne_of_lt (h.lt f hf))
    · rw [hagree f' hf', hnew] at hsame
      exact absurd hsame.symm (Nat.ne_of_lt (h.lt f' hf'))
    · rfl
  · intro f hf name
    refine hkept ?_
    simp only [Machine.opened]
    rcases hcases hf with hf | rfl
    · rw [hagree f hf, Store.get?_allocate_of_lt hf, Store.get?_allocate_of_lt (h.lt f hf)]
      exact h.values f hf name
    · rw [hnew, Store.get?_allocate_self, Store.get?_allocate_self]
      exact hbindings name

/-- Opening frames that bind nothing, as blocks do. -/
theorem opened_empty {g : Gaps} (h : m.Padded table table' φ m')
    (hsees : g.Sees φ m.store m'.store m.scope m'.scope) :
    (m.opened [] m.scope).Padded table table' (φ.extend m.store.nextFrame m'.store.nextFrame)
        (m'.opened [] m'.scope) ∧
      g.enter.Sees (φ.extend m.store.nextFrame m'.store.nextFrame) (m.opened [] m.scope).store
        (m'.opened [] m'.scope).store m.store.nextFrame m'.store.nextFrame :=
  ⟨h.opened h.rooted.scope_lt h.rooted'.scope_lt fun _ => .none,
    hsees.enter h.rooted.nested h.rooted'.nested h.rooted.scope_lt h.rooted'.scope_lt [] []⟩

/-- Opening a further frame on the second side. -/
theorem further (h : m.Padded table table' φ m') {bindings : Bindings} {enclosing : FrameId}
    (hlt : enclosing < m'.store.nextFrame) :
    m.Padded table table' φ (m'.opened bindings enclosing) := by
  have hlater := Store.Later.allocate m'.store bindings (some enclosing)
  refine ⟨h.rooted, h.rooted'.opened hlt, h.hops, h.hops', h.globals, h.sink, h.nextIdentity,
    fun f hf => Nat.lt_of_lt_of_le (h.lt f hf) hlater.le, h.injective, fun f hf name => ?_⟩
  have hvalues := h.values f hf name
  have hsame : (m'.opened bindings enclosing).store.get? (φ f) name = m'.store.get? (φ f) name :=
    Store.get?_allocate_of_lt (h.lt f hf)
  rw [hsame]
  generalize m.store.get? f name = o, m'.store.get? (φ f) name = o' at hvalues
  cases hvalues with
  | none => exact .none
  | some hw => exact .some (hw.later h.rooted.nested h.rooted'.nested (.refl _) hlater .refl)

/-- With other frames current. -/
theorem inFrames (h : m.Padded table table' φ m') {scope scope' : FrameId}
    (hlt : scope < m.store.nextFrame) (hlt' : scope' < m'.store.nextFrame) :
    ({ m with scope } : Machine).Padded table table' φ { m' with scope := scope' } :=
  ⟨h.rooted.inFrame hlt, h.rooted'.inFrame hlt', h.hops, h.hops', h.globals, h.sink,
    h.nextIdentity, h.lt, h.injective, h.values⟩

end Machine.Padded

end TreeWalk
