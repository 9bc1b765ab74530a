import TreeWalk.Proofs.Padding.Machine

/-! Actions that go abreast in two machines of which the second has further frames: they print the
same, and both succeed with related results or both fail in the same way. -/

namespace TreeWalk

/-- Related results, or the same failure. -/
inductive EndsAlike {α : Type} (q : α → α → Prop) : Except Fault α → Except Fault α → Prop where
  | ok {a a'} : q a a' → EndsAlike q (.ok a) (.ok a')
  | error {fault} : EndsAlike q (.error fault) (.error fault)

/-- Two actions in two machines end alike, and afterwards every frame of the first machine is one
of the second machine again. -/
inductive Abreast (table table' : HopTable) (φ : Labelling FrameId) (m m' : Machine) {α : Type}
    (r r' : Run α) (q : Labelling FrameId → Store → Store → α → α → Prop) : Prop where
  | intro {φ₁ : Labelling FrameId} {result result' : Except Fault α} {m₁ m₁' : Machine}
      (run : r m = (result, m₁)) (run' : r' m' = (result', m₁'))
      (later : Machine.BothLater φ m m' φ₁ m₁ m₁') (padded : m₁.Padded table table' φ₁ m₁')
      (ends : EndsAlike (q φ₁ m₁.store m₁'.store) result result')

variable {table table' : HopTable} {φ : Labelling FrameId} {m m' : Machine} {g : Gaps}
  {α β : Type}

namespace Abreast

variable {r r' : Run α} {f f' : α → Run β}
  {q : Labelling FrameId → Store → Store → α → α → Prop}
  {q₂ : Labelling FrameId → Store → Store → β → β → Prop} {a a' : α}

/-- Actions that leave the machines as they are. -/
theorem of_eq {result result' : Except Fault α} (h : m.Padded table table' φ m')
    (hr : r m = (result, m)) (hr' : r' m' = (result', m'))
    (hends : EndsAlike (q φ m.store m'.store) result result') :
    Abreast table table' φ m m' r r' q :=
  .intro hr hr' (.refl φ m m') h hends

theorem pure (h : m.Padded table table' φ m') (hq : q φ m.store m'.store a a') :
    Abreast table table' φ m m' (pure a) (pure a') q :=
  of_eq h rfl rfl (.ok hq)

theorem throw (h : m.Padded table table' φ m') (fault : Fault) :
    Abreast table table' φ m m' (throw fault) (throw fault) q :=
  of_eq h rfl rfl .error

/-- Only what actions do in the two machines matters. -/
theorem congr {s s' : Run α} (h : Abreast table table' φ m m' r r' q) (hr : s m = r m)
    (hr' : s' m' = r' m') : Abreast table table' φ m m' s s' q := by
  obtain ⟨hrun, hrun', hlater, hpadded, hends⟩ := h
  exact .intro (hr.trans hrun) (hr'.trans hrun') hlater hpadded hends

/-- The second actions start from machines that are abreast again. -/
theorem bind (h : Abreast table table' φ m m' r r' q)
    (hf : ∀ φ₁ m₁ m₁' a a', Machine.BothLater φ m m' φ₁ m₁ m₁' →
      m₁.Padded table table' φ₁ m₁' → q φ₁ m₁.store m₁'.store a a' →
        Abreast table table' φ₁ m₁ m₁' (f a) (f' a') q₂) :
    Abreast table table' φ m m' (r >>= f) (r' >>= f') q₂ := by
  obtain ⟨hrun, hrun', hlater, hpadded, hends⟩ := h
  next φ₁ result result' m₁ m₁' =>
  cases hends with
  | @error fault =>
    have hr : (r >>= f) m = (.error fault, m₁) := by rw [Run.bind_apply, hrun]
    have hr' : (r' >>= f') m' = (.error fault, m₁') := by rw [Run.bind_apply, hrun']
    exact .intro hr hr' hlater hpadded .error
  | ok ha =>
    obtain ⟨hrun₂, hrun₂', hlater₂, hpadded₂, hends₂⟩ := hf φ₁ m₁ m₁' _ _ hlater hpadded ha
    refine .intro ?_ ?_ (hlater.trans hlater₂) hpadded₂ hends₂
    · rw [Run.bind_apply, hrun]
      exact hrun₂
    · rw [Run.bind_apply, hrun']
      exact hrun₂'

theorem discard (h : Abreast table table' φ m m' r r' q) :
    Abreast table table' φ m m' (discard r) (discard r') fun _ _ _ _ _ => True := by
  rw [Run.discard_eq, Run.discard_eq]
  exact h.bind fun _ _ _ _ _ _ h₁ _ => pure h₁ trivial

theorem ite {b b' : Prop} [Decidable b] [Decidable b'] {s s' : Run α} (hb : b ↔ b')
    (hr : Abreast table table' φ m m' r r' q) (hs : Abreast table table' φ m m' s s' q) :
    Abreast table table' φ m m' (if b then r else s) (if b' then r' else s') q := by
  by_cases h : b
  · rw [if_pos h, if_pos (hb.mp h)]
    exact hr
  · rw [if_neg h, if_neg (mt hb.mpr h)]
    exact hs

theorem print (h : m.Padded table table' φ m') (text : String) :
    Abreast table table' φ m m' (Run.print text) (Run.print text) fun _ _ _ _ _ => True := by
  have hsink : (m'.sink.write text).2 = (m.sink.write text).2 := by rw [h.sink]
  have hboth : Machine.BothLater φ m m' φ { m with sink := (m.sink.write text).2 }
      { m' with sink := (m'.sink.write text).2 } := ⟨.refl, .print m text, .print m' text⟩
  refine .intro (Run.print_apply text m) (Run.print_apply text m') hboth
    ⟨⟨h.rooted.nested, h.rooted.scope_lt, h.rooted.globals_lt, h.rooted.outermost⟩,
      ⟨h.rooted'.nested, h.rooted'.scope_lt, h.rooted'.globals_lt, h.rooted'.outermost⟩,
      h.hops, h.hops', h.globals, hsink, h.nextIdentity, h.lt, h.injective, h.values⟩ ?_
  rw [h.sink]
  cases (m.sink.write text).1 with
  | ok _ => exact .ok trivial
  | error cause => exact .error

theorem flush (h : m.Padded table table' φ m') :
    Abreast table table' φ m m' Run.flush Run.flush fun _ _ _ _ _ => True := by
  have hr' := Run.flush_apply m'
  rw [h.sink] at hr'
  refine of_eq h (Run.flush_apply m) hr' ?_
  cases m.sink.flush with
  | ok u => exact .ok trivial
  | error cause => exact .error

theorem ofOperation {operation : Operation} (h : m.Padded table table' φ m') (token : Token)
    (hv : ∀ v, operation = .ok v → ∃ l, v = .literal l) :
    Abreast table table' φ m m' (Run.ofOperation token operation)
      (Run.ofOperation token operation) (Value.Padded table table') := by
  cases operation with
  | ok v =>
    obtain ⟨l, rfl⟩ := hv v rfl
    exact pure h .literal
  | error cause => exact throw h _

/-- A new binding in the current frames. Right inside of a further block there are none. -/
theorem define (h : m.Padded table table' φ m')
    (hsees : g.Sees φ m.store m'.store m.scope m'.scope) (hg : g 0 = 0) (name : Token)
    {v v' : Value} (hv : Value.Padded table table' φ m.store m'.store v v') :
    Abreast table table' φ m m' (Run.define name v) (Run.define name v')
      fun _ _ _ _ _ => True := by
  have hrun' : Run.define name v' m' =
      (.ok (), { m' with store := m'.store.define (φ m.scope) name.lexeme v' }) := by
    rw [← hsees.current hg]
    rfl
  exact .intro rfl hrun' ⟨.refl, .define m m.scope name.lexeme v, .define m' _ name.lexeme v'⟩
    (h.define h.rooted.scope_lt hv) (.ok trivial)

theorem makeClosure (h : m.Padded table table' φ m')
    (hsees : g.Sees φ m.store m'.store m.scope m'.scope) (name : Token) (params : List Token)
    {body body' : List Stmt} (hbody : Stmt.AllPadded (table.Padded table') g.enter body body') :
    Abreast table table' φ m m' (Run.makeClosure name params body)
      (Run.makeClosure name params body') (Value.Padded table table') := by
  refine .intro rfl rfl ⟨.refl, ⟨.refl _, rfl, rfl, rfl, rfl⟩, ⟨.refl _, rfl, rfl, rfl, rfl⟩⟩
    h.drawn (.ok ?_)
  rw [h.nextIdentity]
  exact .closure h.rooted.scope_lt h.rooted'.scope_lt hsees hbody

/-- A host function made in passing, the same on both sides. -/
theorem makeHost (h : m.Padded table table' φ m') (name : String) (arity : Nat)
    (body : HostBody) :
    Abreast table table' φ m m' (Run.makeHost name arity body) (Run.makeHost name arity body)
      (Value.Padded table table') := by
  refine .intro rfl rfl ⟨.refl, ⟨.refl _, rfl, rfl, rfl, rfl⟩, ⟨.refl _, rfl, rfl, rfl, rfl⟩⟩
    h.drawn (.ok ?_)
  rw [h.nextIdentity]
  exact .host

/-- In frames that both open. -/
theorem inNewFrame {bindings bindings' : Bindings} {enclosing enclosing' : FrameId}
    (h : Abreast table table' (φ.extend m.store.nextFrame m'.store.nextFrame)
      (m.opened bindings enclosing) (m'.opened bindings' enclosing') r r' q)
    (hm : m.Padded table table' φ m') :
    Abreast table table' φ m m' (Run.inNewFrame bindings enclosing r)
      (Run.inNewFrame bindings' enclosing' r') q := by
  obtain ⟨hrun, hrun', ⟨hagree, hlater, hlater'⟩, hpadded, hends⟩ := h
  have hopen := Store.Later.allocate m.store bindings (some enclosing)
  have hopen' := Store.Later.allocate m'.store bindings' (some enclosing')
  refine .intro (Run.inNewFrame_opened hrun) (Run.inNewFrame_opened hrun')
    ⟨(φ.agree_extend m.store _).trans hopen hagree, hlater.closed, hlater'.closed⟩ ?_ hends
  exact hpadded.inFrames
    (Nat.lt_of_lt_of_le hm.rooted.scope_lt (Nat.le_trans hopen.le hlater.store.le))
    (Nat.lt_of_lt_of_le hm.rooted'.scope_lt (Nat.le_trans hopen'.le hlater'.store.le))

/-- In a further frame that only the second one opens. -/
theorem inFurtherFrame {bindings : Bindings} {enclosing : FrameId}
    (h : Abreast table table' φ m (m'.opened bindings enclosing) r r' q)
    (hm : m.Padded table table' φ m') :
    Abreast table table' φ m m' r (Run.inNewFrame bindings enclosing r') q := by
  obtain ⟨hrun, hrun', ⟨hagree, hlater, hlater'⟩, hpadded, hends⟩ := h
  have hopen' := Store.Later.allocate m'.store bindings (some enclosing)
  refine .intro hrun (Run.inNewFrame_opened hrun') ⟨hagree, hlater, hlater'.closed⟩ ?_ hends
  exact hpadded.inFrames hpadded.rooted.scope_lt
    (Nat.lt_of_lt_of_le hm.rooted'.scope_lt (Nat.le_trans hopen'.le hlater'.store.le))

end Abreast

section Variables

variable {id : NodeId} {name : Token}

namespace Machine.Padded

/-- A variable is looked for in the same frame. -/
theorem place? (h : m.Padded table table' φ m')
    (hsees : g.Sees φ m.store m'.store m.scope m'.scope) (hid : table.Padded table' g id) :
    m'.place? m'.hops[id]? = (m.place? m.hops[id]?).map φ := by
  rw [h.hops, h.hops', hid]
  cases table[id]? with
  | none => exact congrArg some h.globals
  | some d => exact hsees d

theorem lt_of_place? (h : m.Padded table table' φ m') {hops : Option Nat} {f : FrameId}
    (hf : m.place? hops = some f) : f < m.store.nextFrame := by
  cases hops with
  | none =>
    cases hf
    exact h.rooted.globals_lt
  | some d => exact h.rooted.nested.ancestor?_lt h.rooted.scope_lt hf

theorem binds (h : m.Padded table table' φ m') {f : FrameId} (hf : f < m.store.nextFrame)
    (name : String) : m'.store.binds name (φ f) = m.store.binds name f := by
  have hvalues := h.values f hf name
  rw [Store.binds, Store.binds]
  generalize m.store.get? f name = o, m'.store.get? (φ f) name = o' at hvalues
  cases hvalues <;> rfl

end Machine.Padded

namespace Abreast

theorem read (h : m.Padded table table' φ m')
    (hsees : g.Sees φ m.store m'.store m.scope m'.scope) (hid : table.Padded table' g id) :
    Abreast table table' φ m m' (Policy.resolved.read id name) (Policy.resolved.read id name)
      (Value.Padded table table') := by
  have hr := Machine.read_apply h.rooted.globals_lt h.rooted.outermost id name
  have hr' := Machine.read_apply h.rooted'.globals_lt h.rooted'.outermost id name
  rw [h.place? hsees hid] at hr'
  refine of_eq h hr hr' ?_
  cases hplace : m.place? m.hops[id]? with
  | none => exact .error
  | some f =>
    have hvalues := h.values f (h.lt_of_place? hplace) name.lexeme
    simp only [Store.readIn, Option.map_some, Option.bind_some]
    generalize m.store.get? f name.lexeme = v, m'.store.get? (φ f) name.lexeme = v' at hvalues
    cases hvalues with
    | none => exact .error
    | some hv => exact .ok hv

theorem write (h : m.Padded table table' φ m')
    (hsees : g.Sees φ m.store m'.store m.scope m'.scope) (hid : table.Padded table' g id)
    {v v' : Value} (hv : Value.Padded table table' φ m.store m'.store v v') :
    Abreast table table' φ m m' (Policy.resolved.write id name v)
      (Policy.resolved.write id name v') fun _ _ _ _ _ => True := by
  have hr := Machine.write_apply h.rooted.globals_lt h.rooted.outermost id name v
  have hr' := Machine.write_apply h.rooted'.globals_lt h.rooted'.outermost id name v'
  have hfound : (m'.place? m'.hops[id]?).filter (m'.store.binds name.lexeme) =
      ((m.place? m.hops[id]?).filter (m.store.binds name.lexeme)).map φ := by
    rw [h.place? hsees hid]
    cases hplace : m.place? m.hops[id]? with
    | none => rfl
    | some f =>
      rw [Option.map_some, Option.filter_some, Option.filter_some,
        h.binds (h.lt_of_place? hplace)]
      split <;> rfl
  cases hf : (m.place? m.hops[id]?).filter (m.store.binds name.lexeme) with
  | none =>
    rw [hf] at hfound
    rw [Machine.onStore_writeIn_of_none hf] at hr
    rw [Machine.onStore_writeIn_of_none hfound] at hr'
    exact of_eq h hr hr' .error
  | some f =>
    rw [hf] at hfound
    rw [Machine.onStore_writeIn_of_some hf] at hr
    rw [Machine.onStore_writeIn_of_some hfound] at hr'
    have hlt := h.lt_of_place? (Option.filter_eq_some_iff.mp hf).1
    exact .intro hr hr' ⟨.refl, .define m f name.lexeme v, .define m' (φ f) name.lexeme v'⟩
      (h.define hlt hv) (.ok trivial)

end Abreast

end Variables

end TreeWalk
