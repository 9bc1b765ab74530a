import TreeWalk.Proofs.Likeness.Machine

/-! Actions that go alike in machines that are alike: both succeed with results that are alike, or
both fail for the same reason. -/

namespace TreeWalk

/-- Failures that are the same but for lines, and for how an undefined name is spelled. -/
inductive Likeness.Failure (l : Likeness) : Diagnostic → Diagnostic → Prop where
  | runtime {t t' cause} : l.Token t t' →
      Likeness.Failure l (.runtime t cause) (.runtime t' cause)
  | undefined {t t'} (sort : Bool) : l.Name sort t t' →
      Likeness.Failure l (Store.undefined t) (Store.undefined t')
  | sink {cause} : Likeness.Failure l (.sink cause) (.sink cause)

/-- Results of two actions that go alike. -/
inductive Likeness.Ends (l : Likeness) {α : Type} (q : α → α → Prop) :
    Except Fault α → Except Fault α → Prop where
  | ok {a a'} : q a a' → Likeness.Ends l q (.ok a) (.ok a')
  | failure {d d'} : l.Failure d d' →
      Likeness.Ends l q (.error (.failure d)) (.error (.failure d'))
  | exhausted : Likeness.Ends l q (.error .exhausted) (.error .exhausted)

/-- Two actions in two machines go alike and leave the machines alike, each later in its run. The
frames opened meanwhile have sorts as well. -/
inductive Lockstep (l : Likeness) (sorts : Labelling Bool) (m m' : Machine) {α : Type}
    (r r' : Run α) (q : Labelling Bool → Store → α → α → Prop) : Prop where
  | intro {sorts₁ : Labelling Bool} {result result' : Except Fault α} {m₁ m₁' : Machine}
      (run : r m = (result, m₁)) (run' : r' m' = (result', m₁'))
      (agree : sorts.Agree m.store sorts₁) (later : m.Later m₁) (alike : m₁.Alike l sorts₁ m₁')
      (ends : l.Ends (q sorts₁ m₁.store) result result') (later' : m'.Later m₁')

variable {l : Likeness} {sorts : Labelling Bool} {m m' : Machine} {α β : Type}

namespace Machine.Alike

/-- Machines that are alike stay so when the same is done to what they have in common. -/
theorem of_store (h : m.Alike l sorts m') {store store' : Store}
    (hnext : store.nextFrame = m.store.nextFrame)
    (hnext' : store'.nextFrame = m'.store.nextFrame)
    (he : ∀ f, store.enclosing? f = m.store.enclosing? f)
    (he' : ∀ f, store'.enclosing? f = m'.store.enclosing? f)
    (hvalues : ∀ f {n n'}, l.spelled (sorts f) n n' →
      Option.Rel (Value.Alike l sorts store) (store.get? f n) (store'.get? f n')) :
    ({ m with store } : Machine).Alike l sorts { m' with store := store' } where
  nextFrame := by rw [hnext, hnext', h.nextFrame]
  enclosing f := by rw [he, he', h.enclosing]
  scope := h.scope
  globals := h.globals
  sink := h.sink
  nextIdentity := h.nextIdentity
  hops := h.hops
  values := hvalues
  nested f g hg := h.nested f g (by rwa [he] at hg)
  scope_lt := by
    rw [hnext]
    exact h.scope_lt
  globals_lt := by
    rw [hnext]
    exact h.globals_lt
  outermost := by
    rw [he]
    exact h.outermost
  globals_sort := h.globals_sort

theorem define (h : m.Alike l sorts m') (hl : l.Faithful) {frame : FrameId}
    {name name' : String} {v v' : Value}
    (hname : l.spelled (sorts frame) name name') (hv : Value.Alike l sorts m.store v v') :
    ({ m with store := m.store.define frame name v } : Machine).Alike l sorts
      { m' with store := m'.store.define frame name' v' } := by
  refine h.of_store Store.nextFrame_define Store.nextFrame_define
    (fun f => Store.enclosing?_define) (fun f => Store.enclosing?_define) fun f n n' hn => ?_
  have hlater := Store.Later.define m.store frame name v
  have hlater' {w w' : Value} (hw : Value.Alike l sorts m.store w w') :=
    hw.later h.nested hlater .refl
  have hother := h.values f hn
  rw [Store.get?_define, Store.get?_define, ← h.nextFrame]
  by_cases hhere : frame = f ∧ n = name ∧ f < m.store.nextFrame
  · obtain ⟨rfl, rfl, hlt⟩ := hhere
    rw [if_pos ⟨rfl, rfl, hlt⟩, if_pos ⟨rfl, (hl hn hname).mp rfl, hlt⟩]
    exact .some (hlater' hv)
  · have hnot : ¬ (frame = f ∧ n' = name' ∧ f < m.store.nextFrame) := by
      rintro ⟨rfl, hsame, hlt⟩
      exact hhere ⟨rfl, (hl hn hname).mpr hsame, hlt⟩
    rw [if_neg hhere, if_neg hnot]
    generalize m.store.get? f n = o, m'.store.get? f n' = o' at hother
    cases hother with
    | none => exact .none
    | some hw => exact .some (hlater' hw)

/-- Both sides draw a function identity. -/
theorem drawn (h : m.Alike l sorts m') :
    ({ m with nextIdentity := m.nextIdentity + 1 } : Machine).Alike l sorts
      { m' with nextIdentity := m'.nextIdentity + 1 } :=
  ⟨h.nextFrame, h.enclosing, h.scope, h.globals, h.sink, congrArg Nat.succ h.nextIdentity, h.hops,
    h.values, h.nested, h.scope_lt, h.globals_lt, h.outermost, h.globals_sort⟩

/-- The same host function becomes a global on both sides. -/
theorem defineHost (h : m.Alike l sorts m') (hl : l.Faithful) {name : String}
    (hname : l.spelled false name name) (arity : Nat)
    (body : HostBody) :
    (m.defineHost name arity body).Alike l sorts (m'.defineHost name arity body) := by
  have hdefined := h.define hl (h.globals_sort ▸ hname)
    (.host (f := ⟨m.nextIdentity, name, arity, body⟩))
  rw [Machine.defineHost, Machine.defineHost, ← h.nextIdentity, ← h.globals]
  exact ⟨hdefined.nextFrame, hdefined.enclosing, h.scope, rfl, h.sink, rfl, h.hops,
    hdefined.values, hdefined.nested, hdefined.scope_lt, hdefined.globals_lt, hdefined.outermost,
    h.globals_sort⟩

/-- Opening a frame of either sort with bindings that are alike. -/
theorem opened (h : m.Alike l sorts m') {bindings bindings' : Bindings} {enclosing : FrameId}
    (sort : Bool)
    (hlt : enclosing < m.store.nextFrame)
    (hbindings : ∀ {n n'}, l.spelled sort n n' →
      Option.Rel (Value.Alike l sorts m.store) (bindings.lookup n) (bindings'.lookup n')) :
    (m.opened bindings enclosing).Alike l (sorts.extend m.store.nextFrame sort)
      (m'.opened bindings' enclosing) := by
  have hlater := Store.Later.allocate m.store bindings (some enclosing)
  have hagree := sorts.agree_extend m.store sort
  have hkept {o o' : Option Value} (ho : Option.Rel (Value.Alike l sorts m.store) o o') :
      Option.Rel (Value.Alike l (sorts.extend m.store.nextFrame sort)
        (m.store.allocate bindings (some enclosing))) o o' := by
    cases ho with
    | none => exact .none
    | some hw => exact .some (hw.later h.nested hlater hagree)
  have hnested : (m.store.allocate bindings (some enclosing)).Nested := h.nested.allocate (by
    rintro g ⟨⟩
    exact hlt)
  refine ⟨?_, fun f => ?_, h.nextFrame, h.globals, h.sink, h.nextIdentity, h.hops,
    fun f n n' hn => ?_, hnested, ?_, Nat.lt_of_lt_of_le h.globals_lt hlater.le, ?_, ?_⟩
  · simp only [Machine.opened, Store.nextFrame_allocate, h.nextFrame]
  · simp only [Machine.opened]
    rw [Store.enclosing?_allocate, Store.enclosing?_allocate, ← h.nextFrame, h.enclosing]
  · simp only [Machine.opened]
    rw [Store.get?_allocate, Store.get?_allocate, ← h.nextFrame]
    by_cases hf : f = m.store.nextFrame
    · have hsort : sorts.extend m.store.nextFrame sort f = sort := if_pos hf
      rw [hsort] at hn
      rw [if_pos hf, if_pos hf]
      exact hkept (hbindings hn)
    · have hsort : sorts.extend m.store.nextFrame sort f = sorts f := if_neg hf
      rw [hsort] at hn
      rw [if_neg hf, if_neg hf]
      exact hkept (h.values f hn)
  · simp only [Machine.opened, Store.nextFrame_allocate]
    exact Nat.lt_succ_self _
  · exact (hlater.enclosing _ h.globals_lt).trans h.outermost
  · exact (hagree _ h.globals_lt).trans h.globals_sort

end Machine.Alike

namespace Lockstep

variable {r r' : Run α} {f f' : α → Run β} {q : Labelling Bool → Store → α → α → Prop}
  {q₂ : Labelling Bool → Store → β → β → Prop} {a a' : α}

/-- Actions that leave the machines as they are. -/
theorem of_eq {result result' : Except Fault α} (h : m.Alike l sorts m')
    (hr : r m = (result, m)) (hr' : r' m' = (result', m'))
    (hends : l.Ends (q sorts m.store) result result') : Lockstep l sorts m m' r r' q :=
  .intro hr hr' .refl (.refl m) h hends (.refl m')

theorem pure (h : m.Alike l sorts m') (hq : q sorts m.store a a') :
    Lockstep l sorts m m' (pure a) (pure a') q :=
  of_eq h rfl rfl (.ok hq)

theorem exhausted (h : m.Alike l sorts m') :
    Lockstep l sorts m m' (throw .exhausted) (throw .exhausted) q :=
  of_eq h rfl rfl .exhausted

theorem fail {token token' : Token} {cause : RuntimeCause} (h : m.Alike l sorts m')
    (htoken : l.Token token token') :
    Lockstep l sorts m m' (Run.fail token cause) (Run.fail token' cause) q :=
  of_eq h rfl rfl (.failure (.runtime htoken))

/-- Only what actions do in the two machines matters. -/
theorem congr {s s' : Run α} (h : Lockstep l sorts m m' r r' q) (hr : s m = r m)
    (hr' : s' m' = r' m') : Lockstep l sorts m m' s s' q := by
  obtain ⟨hrun, hrun', hagree, hlater, halike, hends, hlater'⟩ := h
  exact .intro (hr.trans hrun) (hr'.trans hrun') hagree hlater halike hends hlater'

/-- The second actions start from machines that are alike again. -/
theorem bind (h : Lockstep l sorts m m' r r' q)
    (hf : ∀ sorts₁ m₁ m₁' a a', sorts.Agree m.store sorts₁ → m.Later m₁ → m₁.Alike l sorts₁ m₁' →
      q sorts₁ m₁.store a a' → Lockstep l sorts₁ m₁ m₁' (f a) (f' a') q₂) :
    Lockstep l sorts m m' (r >>= f) (r' >>= f') q₂ := by
  obtain ⟨hrun, hrun', hagree, hlater, halike, hends, hlater'⟩ := h
  next sorts₁ result result' m₁ m₁' =>
  have hfails (d d' : Fault) (hends : l.Ends (q₂ sorts₁ m₁.store) (.error d) (.error d'))
      (hrun : r m = (.error d, m₁)) (hrun' : r' m' = (.error d', m₁')) :
      Lockstep l sorts m m' (r >>= f) (r' >>= f') q₂ := by
    refine .intro ?_ ?_ hagree hlater halike hends hlater'
    · rw [Run.bind_apply, hrun]
    · rw [Run.bind_apply, hrun']
  cases hends with
  | failure hd => exact hfails _ _ (.failure hd) hrun hrun'
  | exhausted => exact hfails _ _ .exhausted hrun hrun'
  | ok ha =>
    obtain ⟨hrun₂, hrun₂', hagree₂, hlater₂, halike₂, hends₂, hlater₂'⟩ :=
      hf sorts₁ m₁ m₁' _ _ hagree hlater halike ha
    refine .intro ?_ ?_ (hagree.trans hlater.store hagree₂) (hlater.trans hlater₂) halike₂ hends₂
      (hlater'.trans hlater₂')
    · rw [Run.bind_apply, hrun]
      exact hrun₂
    · rw [Run.bind_apply, hrun']
      exact hrun₂'

theorem discard (h : Lockstep l sorts m m' r r' q) :
    Lockstep l sorts m m' (discard r) (discard r') fun _ _ _ _ => True := by
  rw [Run.discard_eq, Run.discard_eq]
  exact h.bind fun _ _ _ _ _ _ _ halike _ => pure halike trivial

theorem ite {b b' : Prop} [Decidable b] [Decidable b'] {s s' : Run α} (hb : b ↔ b')
    (hr : Lockstep l sorts m m' r r' q) (hs : Lockstep l sorts m m' s s' q) :
    Lockstep l sorts m m' (if b then r else s) (if b' then r' else s') q := by
  by_cases h : b
  · rw [if_pos h, if_pos (hb.mp h)]
    exact hr
  · rw [if_neg h, if_neg (mt hb.mpr h)]
    exact hs

theorem define (hl : l.Faithful) {name name' : Token} {v v' : Value} (h : m.Alike l sorts m')
    (hname : l.spelled (sorts m.scope) name.lexeme name'.lexeme)
    (hv : Value.Alike l sorts m.store v v') :
    Lockstep l sorts m m' (Run.define name v) (Run.define name' v') fun _ _ _ _ => True := by
  have hrun' : Run.define name' v' m' =
      (.ok (), { m' with store := m'.store.define m.scope name'.lexeme v' }) := by
    rw [h.scope]
    rfl
  exact .intro rfl hrun' .refl (.define m m.scope name.lexeme v) (h.define hl hname hv)
    (.ok trivial) (.define m' m.scope name'.lexeme v')

theorem print {text : String} (h : m.Alike l sorts m') :
    Lockstep l sorts m m' (Run.print text) (Run.print text) fun _ _ _ _ => True := by
  have hsink : (m.sink.write text).2 = (m'.sink.write text).2 := by rw [h.sink]
  refine .intro (Run.print_apply text m) (Run.print_apply text m') .refl (.print m text)
    ⟨h.nextFrame, h.enclosing, h.scope, h.globals, hsink, h.nextIdentity, h.hops, h.values,
      h.nested, h.scope_lt, h.globals_lt, h.outermost, h.globals_sort⟩ ?_ (.print m' text)
  rw [← h.sink]
  cases (m.sink.write text).1 with
  | ok _ => exact .ok trivial
  | error cause => exact .failure .sink

theorem flush (h : m.Alike l sorts m') :
    Lockstep l sorts m m' Run.flush Run.flush fun _ _ _ _ => True := by
  have hr' := Run.flush_apply m'
  rw [← h.sink] at hr'
  refine of_eq h (Run.flush_apply m) hr' ?_
  cases m.sink.flush with
  | ok u => exact .ok trivial
  | error cause => exact .failure .sink

theorem ofOperation {token token' : Token} {operation : Operation} (h : m.Alike l sorts m')
    (htoken : l.Token token token') (hv : ∀ v, operation = .ok v → Value.Alike l sorts m.store v v) :
    Lockstep l sorts m m' (Run.ofOperation token operation) (Run.ofOperation token' operation)
      fun sorts₁ store₁ => Value.Alike l sorts₁ store₁ := by
  cases operation with
  | ok v => exact pure h (hv v rfl)
  | error cause => exact fail h htoken

theorem makeClosure {o : Outlook} {sort : Bool} {name name' : Token} {params params' : List Token}
    {body body' : List Stmt} (h : m.Alike l sorts m') (hname : l.Token name name')
    (ho : o.Fits m.store sorts m.scope)
    (hregion : Region.Alike l sort o ⟨params, body⟩ ⟨params', body'⟩) :
    Lockstep l sorts m m' (Run.makeClosure name params body) (Run.makeClosure name' params' body')
      fun sorts₁ store₁ => Value.Alike l sorts₁ store₁ := by
  refine .intro rfl rfl .refl ⟨.refl _, rfl, rfl, rfl, rfl⟩ h.drawn (.ok ?_)
    ⟨.refl _, rfl, rfl, rfl, rfl⟩
  exact .closure h.scope_lt h.scope h.nextIdentity hname ho hregion

/-- A host function made in passing, the same on both sides. -/
theorem makeHost (h : m.Alike l sorts m') (name : String) (arity : Nat) (body : HostBody) :
    Lockstep l sorts m m' (Run.makeHost name arity body) (Run.makeHost name arity body)
      fun sorts₁ store₁ => Value.Alike l sorts₁ store₁ := by
  refine .intro rfl rfl .refl ⟨.refl _, rfl, rfl, rfl, rfl⟩ h.drawn (.ok ?_)
    ⟨.refl _, rfl, rfl, rfl, rfl⟩
  rw [← h.nextIdentity]
  exact .host

theorem inNewFrame {bindings bindings' : Bindings} {enclosing : FrameId} (sort : Bool)
    (h : Lockstep l (sorts.extend m.store.nextFrame sort) (m.opened bindings enclosing)
      (m'.opened bindings' enclosing) r r' q) (hm : m.Alike l sorts m') :
    Lockstep l sorts m m' (Run.inNewFrame bindings enclosing r)
      (Run.inNewFrame bindings' enclosing r') q := by
  obtain ⟨hrun, hrun', hagree, hlater, halike, hends, hlater'⟩ := h
  next sorts₁ result result' m₁ m₁' =>
  have hopen := Store.Later.allocate m.store bindings (some enclosing)
  refine .intro (Run.inNewFrame_opened hrun) (Run.inNewFrame_opened hrun')
    ((sorts.agree_extend m.store sort).trans hopen hagree) hlater.closed ?_ hends hlater'.closed
  exact ⟨halike.nextFrame, halike.enclosing, hm.scope, halike.globals, halike.sink,
    halike.nextIdentity, halike.hops, halike.values, halike.nested,
    Nat.lt_of_lt_of_le hm.scope_lt (Nat.le_trans hopen.le hlater.store.le), halike.globals_lt,
    halike.outermost, halike.globals_sort⟩

end Lockstep

section Variables

variable {o : Outlook} {id id' : NodeId} {hops : Option Nat} {name name' : Token}

namespace Machine.Alike

theorem symm_lt (h : m.Alike l sorts m') : m'.globals < m'.store.nextFrame := by
  rw [← h.globals, ← h.nextFrame]
  exact h.globals_lt

theorem symm_outermost (h : m.Alike l sorts m') : m'.store.enclosing? m'.globals = none := by
  rw [← h.globals, ← h.enclosing]
  exact h.outermost

theorem ancestor? (h : m.Alike l sorts m') (frame : FrameId) (d : Nat) :
    m.store.ancestor? frame d = m'.store.ancestor? frame d := by
  induction d generalizing frame with
  | zero => rfl
  | succ d ih =>
    rw [Store.ancestor?, Store.ancestor?, ← h.enclosing]
    cases m.store.enclosing? frame with
    | none => rfl
    | some outer => exact ih outer

theorem place? (h : m.Alike l sorts m') (hops : Option Nat) : m.place? hops = m'.place? hops := by
  cases hops with
  | none => exact congrArg some h.globals
  | some d =>
    rw [Machine.place?, Machine.place?, h.ancestor?, h.scope]

theorem sort_of_place? (h : m.Alike l sorts m') (ho : o.Fits m.store sorts m.scope) {g : FrameId}
    (hg : m.place? hops = some g) : sorts g = o.sortAt hops := by
  cases hops with
  | some d => exact ho d g hg
  | none =>
    cases hg
    exact h.globals_sort

end Machine.Alike

namespace Lockstep

theorem read (h : m.Alike l sorts m') (hid : l.node id id' hops)
    (hname : l.Name (o.sortAt hops) name name') (ho : o.Fits m.store sorts m.scope) :
    Lockstep l sorts m m' (Policy.resolved.read id name) (Policy.resolved.read id' name')
      fun sorts₁ store₁ => Value.Alike l sorts₁ store₁ := by
  have hr := Machine.read_apply h.globals_lt h.outermost id name
  have hr' := Machine.read_apply h.symm_lt h.symm_outermost id' name'
  rw [(h.hops hid).1] at hr
  rw [(h.hops hid).2, ← h.place?] at hr'
  refine of_eq h hr hr' ?_
  cases hplace : m.place? hops with
  | none => exact .failure (.undefined _ hname)
  | some g =>
    have hvalues := h.values g (h.sort_of_place? ho hplace ▸ hname.spelled)
    simp only [Store.readIn, Option.bind_some]
    generalize m.store.get? g name.lexeme = v, m'.store.get? g name'.lexeme = v' at hvalues
    cases hvalues with
    | none => exact .failure (.undefined _ hname)
    | some hv => exact .ok hv

theorem write (hl : l.Faithful) {v v' : Value} (h : m.Alike l sorts m') (hid : l.node id id' hops)
    (hname : l.Name (o.sortAt hops) name name') (ho : o.Fits m.store sorts m.scope)
    (hv : Value.Alike l sorts m.store v v') :
    Lockstep l sorts m m' (Policy.resolved.write id name v) (Policy.resolved.write id' name' v')
      fun _ _ _ _ => True := by
  have hr := Machine.write_apply h.globals_lt h.outermost id name v
  have hr' := Machine.write_apply h.symm_lt h.symm_outermost id' name' v'
  rw [(h.hops hid).1] at hr
  rw [(h.hops hid).2, ← h.place?] at hr'
  have hbinds : (m.place? hops).filter (m.store.binds name.lexeme) =
      (m.place? hops).filter (m'.store.binds name'.lexeme) := by
    cases hplace : m.place? hops with
    | none => rfl
    | some g =>
      have hvalues := h.values g (h.sort_of_place? ho hplace ▸ hname.spelled)
      have hsome : m.store.binds name.lexeme g = m'.store.binds name'.lexeme g := by
        rw [Store.binds, Store.binds]
        generalize m.store.get? g name.lexeme = v, m'.store.get? g name'.lexeme = v' at hvalues
        cases hvalues <;> rfl
      rw [Option.filter_some, Option.filter_some, hsome]
  cases hf : (m.place? hops).filter (m.store.binds name.lexeme) with
  | none =>
    rw [Machine.onStore_writeIn_of_none hf] at hr
    rw [Machine.onStore_writeIn_of_none (hbinds ▸ hf)] at hr'
    exact of_eq h hr hr' (.failure (.undefined _ hname))
  | some g =>
    rw [Machine.onStore_writeIn_of_some hf] at hr
    rw [Machine.onStore_writeIn_of_some (hbinds ▸ hf)] at hr'
    have hsort := h.sort_of_place? ho (Option.filter_eq_some_iff.mp hf).1
    exact .intro hr hr' .refl (.define m g name.lexeme v)
      (h.define hl (hsort ▸ hname.spelled) hv) (.ok trivial) (.define m' g name'.lexeme v')

end Lockstep

end Variables

end TreeWalk
