import TreeWalk.Proofs.Machine.Activation
import TreeWalk.Proofs.Machine.Keeping

/-! Actions that keep a machine sound and that no watching policy stops. -/

namespace TreeWalk

variable {ps : List Program} {c : Context} {m : Machine} {α β : Type}

/-- An action keeps the machine sound, whether or not it succeeds, its result has the property `q`,
and it does the same under every policy that watches. The context at its end says what the frames
opened meanwhile are activations of; a policy may watch with any context that adds to it. -/
inductive Safe (ps : List Program) (c : Context) (m : Machine) (r : Policy → Run α)
    (q : Context → Machine → α → Prop) : Prop where
  | intro {c' : Context} {result : Except Fault α} {m' : Machine}
      (run : r .resolved m = (result, m')) (agree : c.Agree m.store c') (later : m.Later m')
      (sound : m'.Sound ps c') (post : ∀ a, result = .ok a → q c' m' a)
      (watched : ∀ cf policy, c'.Agree m'.store cf → policy.Watches ps cf →
        r policy m = (result, m'))

namespace Safe

variable {r : Policy → Run α} {f : α → Policy → Run β} {q : Context → Machine → α → Prop}
  {q' : Context → Machine → β → Prop} {a : α}

/-- An action that is the same under all policies and changes no frame. -/
theorem of_eq {r : Run α} {result : Except Fault α} {m' : Machine} (hs : m.Sound ps c)
    (hr : r m = (result, m')) (hstore : m'.store = m.store) (hscope : m'.scope = m.scope)
    (hglobals : m'.globals = m.globals) (hhops : m'.hops = m.hops)
    (hflush : m'.sink.flushFails = m.sink.flushFails) (hq : ∀ a, result = .ok a → q c m' a) :
    Safe ps c m (fun _ => r) q := by
  refine .intro hr .refl ⟨hstore ▸ .refl _, hscope, hglobals, hhops, hflush⟩ ?_ hq fun _ _ _ _ => hr
  refine ⟨hstore ▸ hs.nested, ?_, ?_, ?_, ?_, hstore ▸ hs.bounded, hhops ▸ hs.hops⟩
  · rw [hstore, hglobals]
    exact hs.globals_lt
  · rw [hstore, hglobals]
    exact hs.outermost
  · rw [hglobals]
    exact hs.globals_nil
  · rw [hstore, hglobals]
    exact hs.values

theorem pure (hs : m.Sound ps c) (hq : q c m a) : Safe ps c m (fun _ => pure a) q :=
  of_eq hs rfl rfl rfl rfl rfl rfl fun a' ha => by
    cases ha
    exact hq

theorem throw {fault : Fault} (hs : m.Sound ps c) : Safe ps c m (fun _ => throw fault) q := by
  have hr : (MonadExcept.throw fault : Run α) m = (.error fault, m) := rfl
  exact of_eq hs hr rfl rfl rfl rfl rfl fun a ha => by cases ha

theorem get {q : Context → Machine → Machine → Prop} (hs : m.Sound ps c) (hq : q c m m) :
    Safe ps c m (fun _ => get) q := by
  have hr : (MonadState.get : Run Machine) m = (.ok m, m) := rfl
  refine of_eq hs hr rfl rfl rfl rfl rfl fun a ha => ?_
  cases ha
  exact hq

/-- What is known where a run by hop counts ended. -/
theorem ended (h : Safe ps c m r q) {result : Except Fault α} {m' : Machine}
    (hr : r .resolved m = (result, m')) : ∃ c', c.Agree m.store c' ∧ m.Later m' ∧
      m'.Sound ps c' ∧ ∀ a, result = .ok a → q c' m' a := by
  obtain ⟨hrun, hagree, hlater, hsound, hpost, -⟩ := h
  next c' result' m₁ =>
  obtain ⟨rfl, rfl⟩ := Prod.mk.inj (hr.symm.trans hrun)
  exact ⟨c', hagree, hlater, hsound, hpost⟩

theorem mono {q' : Context → Machine → α → Prop} (h : Safe ps c m r q)
    (hq : ∀ c' m' a, c.Agree m.store c' → m.Later m' → m'.Sound ps c' → q c' m' a → q' c' m' a) :
    Safe ps c m r q' := by
  obtain ⟨hrun, hagree, hlater, hsound, hpost, hwatched⟩ := h
  exact .intro hrun hagree hlater hsound
    (fun a ha => hq _ _ a hagree hlater hsound (hpost a ha)) hwatched

/-- The second action starts from whatever the first one leaves. A policy that watches with the
context at the end of both also watches the first one. -/
theorem bind (hr : Safe ps c m r q)
    (hf : ∀ c' m' a, c.Agree m.store c' → m.Later m' → m'.Sound ps c' → q c' m' a →
      Safe ps c' m' (f a) q') :
    Safe ps c m (fun policy => r policy >>= fun a => f a policy) q' := by
  obtain ⟨hrun, hagree, hlater, hsound, hpost, hwatched⟩ := hr
  next c₁ result m₁ =>
  cases result with
  | error fault =>
    have hfails (policy : Policy) (h : r policy m = (.error fault, m₁)) :
        (r policy >>= fun a => f a policy) m = (.error fault, m₁) := by
      rw [Run.bind_apply, h]
    exact .intro (hfails .resolved hrun) hagree hlater hsound (fun a ha => by cases ha)
      fun cf policy hcf hp => hfails policy (hwatched cf policy hcf hp)
  | ok a =>
    obtain ⟨hrun₂, hagree₂, hlater₂, hsound₂, hpost₂, hwatched₂⟩ :=
      hf c₁ m₁ a hagree hlater hsound (hpost a rfl)
    refine .intro ?_ (hagree.trans hlater.store hagree₂) (hlater.trans hlater₂) hsound₂ hpost₂
      fun cf policy hcf hp => ?_
    · rw [Run.bind_apply, hrun]
      exact hrun₂
    · have hfirst := hwatched cf policy (hagree₂.trans hlater₂.store hcf) hp
      rw [Run.bind_apply, hfirst]
      exact hwatched₂ cf policy hcf hp

/-- An event that holds passes. It holds in every context that adds to the present one, because
what it speaks of are frames that exist already. -/
theorem observe {event : Event} (hs : m.Sound ps c)
    (hevent : ∀ cf, c.Agree m.store cf → event.Holds ps cf m) (hfits : event.Fits m) :
    Safe ps c m (fun policy => policy.observe event) fun _ _ _ => True := by
  have hr : Policy.resolved.observe event m = (.ok (), m) := rfl
  exact .intro hr .refl (.refl m) hs (fun _ _ => trivial) fun cf policy hcf hp =>
    hp.observe event m (hevent cf hcf) hfits

theorem discard (h : Safe ps c m r q) :
    Safe ps c m (fun policy => discard (r policy)) fun _ _ _ => True := by
  simp only [Run.discard_eq]
  exact h.bind fun _ _ _ _ _ hs _ => pure hs trivial

theorem ite {b : Prop} [Decidable b] {r' : Policy → Run α} (hr : Safe ps c m r q)
    (hr' : Safe ps c m r' q) : Safe ps c m (fun policy => if b then r policy else r' policy) q := by
  split
  · exact hr
  · exact hr'

end Safe

/-- The current frame is the globals or was opened. -/
theorem Machine.Sound.lt_nextFrame (hs : m.Sound ps c) {regions : List Region}
    {scopes : List Scope} {frame : FrameId}
    (hr : Realises c m.store m.globals regions scopes frame) : frame < m.store.nextFrame := by
  cases hr with
  | globals => exact hs.globals_lt
  | frame _ he => exact Store.lt_nextFrame_of_enclosing? he

/-- Binding a name keeps a machine sound, if the value is placed once the name is bound, and the
frame may bind the name. -/
theorem Machine.Sound.define (hs : m.Sound ps c) {frame : FrameId} {name : String} {v : Value}
    (hv : v.Placed ps c (m.store.define frame name v) m.globals)
    (hname : ∀ r ∈ (c frame).head?, r.Declares name) :
    ({ m with store := m.store.define frame name v } : Machine).Sound ps c := by
  refine ⟨hs.nested.define, ?_, ?_, hs.globals_nil, fun f other w hw => ?_,
    fun f r hr other hbinds => ?_, hs.hops⟩
  · rw [Store.nextFrame_define]
    exact hs.globals_lt
  · rw [Store.enclosing?_define]
    exact hs.outermost
  · simp only [Store.get?_define] at hw
    split at hw
    · cases hw
      exact hv
    · exact (hs.values f other w hw).later (.define _ _ _ _) .refl
  · simp only [Store.binds, Store.get?_define] at hbinds
    split at hbinds
    · next hsame =>
      obtain ⟨rfl, rfl, -⟩ := hsame
      exact hname r hr
    · exact hs.bounded f r hr other hbinds

namespace Safe

theorem define {name : Token} {v : Value} (hs : m.Sound ps c) (hlt : m.scope < m.store.nextFrame)
    (hv : v.Placed ps c (m.store.define m.scope name.lexeme v) m.globals)
    (hname : ∀ r ∈ (c m.scope).head?, r.Declares name.lexeme) :
    Safe ps c m (fun _ => Run.define name v)
      (fun _ m' _ => m'.store.binds name.lexeme m'.scope = true) := by
  have hr : Run.define name v m =
    (.ok (), { m with store := m.store.define m.scope name.lexeme v }) := rfl
  refine .intro hr .refl (.define m _ _ _) (hs.define hv hname) (fun _ _ => ?_) fun _ _ _ _ => hr
  change (m.store.define m.scope name.lexeme v).binds name.lexeme m.scope = true
  rw [Store.binds, Store.get?_define_self hlt]
  rfl

theorem makeClosure {name : Token} {params : List Token} {body : List Stmt} (hs : m.Sound ps c) :
    Safe ps c m (fun _ => Run.makeClosure name params body) (fun _ m' v =>
      ∃ identity, v = .closure ⟨identity, name, params, body, m'.scope⟩) := by
  refine of_eq hs rfl rfl rfl rfl rfl rfl fun v hv => ?_
  cases hv
  exact ⟨m.nextIdentity, rfl⟩

theorem makeHost {name : String} {arity : Nat} {body : HostBody} (hs : m.Sound ps c) :
    Safe ps c m (fun _ => Run.makeHost name arity body) (fun c' m' v =>
      v.Placed ps c' m'.store m'.globals) := by
  refine of_eq hs rfl rfl rfl rfl rfl rfl fun v hv => ?_
  cases hv
  trivial

theorem print {text : String} (hs : m.Sound ps c) :
    Safe ps c m (fun _ => Run.print text) (fun _ _ _ => True) := by
  have hr := Run.print_apply text m
  exact of_eq hs hr rfl rfl rfl rfl (m.sink.flushFails_write text) fun _ _ => trivial

theorem flush (hs : m.Sound ps c) : Safe ps c m (fun _ => Run.flush) (fun _ _ _ => True) := by
  have hr := Run.flush_apply m
  exact of_eq hs hr rfl rfl rfl rfl rfl fun _ _ => trivial

theorem fail {token : Token} {cause : RuntimeCause} {q : Context → Machine → α → Prop}
    (hs : m.Sound ps c) : Safe ps c m (fun _ => Run.fail token cause) q :=
  throw hs

end Safe

theorem Machine.Sound.opened (hs : m.Sound ps c) {bindings : Bindings} {enclosing : FrameId}
    (henclosing : enclosing < m.store.nextFrame)
    (hbindings : ∀ name v, bindings.lookup name = some v → v.Placed ps c m.store m.globals)
    (regions : List Region) (hnames : ∀ r ∈ regions.head?, ∀ name,
      (bindings.lookup name).isSome = true → r.Declares name) :
    (m.opened bindings enclosing).Sound ps (c.extend m.store.nextFrame regions) := by
  have hglobals := hs.globals_lt
  have hlater := Store.Later.allocate m.store bindings (some enclosing)
  have hagree := c.agree_extend m.store regions
  refine ⟨hs.nested.allocate ?_, Nat.lt_of_lt_of_le hglobals hlater.le, ?_, ?_,
    fun f name v hv => ?_, fun f r hr name hbinds => ?_, hs.hops⟩
  · intro g hg
    cases hg
    exact henclosing
  · exact (hlater.enclosing _ hglobals).trans hs.outermost
  · exact (hagree _ hglobals).trans hs.globals_nil
  · rw [Machine.opened, Store.get?_allocate] at hv
    split at hv
    · exact (hbindings name v hv).later hlater hagree
    · exact (hs.values f name v hv).later hlater hagree
  · rw [Store.binds, Machine.opened, Store.get?_allocate] at hbinds
    by_cases hf : f = m.store.nextFrame
    · rw [if_pos hf] at hbinds
      rw [Labelling.extend, if_pos hf] at hr
      exact hnames r hr name hbinds
    · rw [if_neg hf] at hbinds
      rw [Labelling.extend, if_neg hf] at hr
      exact hs.bounded f r hr name hbinds

namespace Safe

/-- What runs in a new frame may leave behind whatever does not depend on which frame is current. -/
theorem inNewFrame {bindings : Bindings} {enclosing : FrameId} {action : Policy → Run α}
    (regions : List Region) (q : Context → Store → FrameId → α → Prop)
    (h : Safe ps (c.extend m.store.nextFrame regions) (m.opened bindings enclosing) action
      fun c' m' a => q c' m'.store m'.globals a) :
    Safe ps c m (fun policy => Run.inNewFrame bindings enclosing (action policy))
      fun c' m' a => q c' m'.store m'.globals a := by
  obtain ⟨hrun, hagree, hlater, hsound, hpost, hwatched⟩ := h
  next c' result m' =>
  have hopen := Store.Later.allocate m.store bindings (some enclosing)
  have hclosed (policy : Policy) (hp : action policy (m.opened bindings enclosing) = (result, m')) :
      Run.inNewFrame bindings enclosing (action policy) m = (result, { m' with scope := m.scope }) := by
    change (_, _) = _
    rw [Machine.opened] at hp
    rw [hp]
  -- The frame stays in the store, and only stops being the current one.
  refine .intro (hclosed .resolved hrun) ((c.agree_extend m.store regions).trans hopen hagree)
    hlater.closed ?_ hpost
    fun cf policy hcf hp => hclosed policy (hwatched cf policy hcf hp)
  exact ⟨hsound.nested, hsound.globals_lt, hsound.outermost, hsound.globals_nil, hsound.values,
    hsound.bounded, hsound.hops⟩

/-- Actions that every policy that watches takes in the same way. -/
theorem of_resolved {r : Policy → Run α} {q : Context → Machine → α → Prop}
    (h : Safe ps c m (fun _ => r .resolved) q)
    (hr : ∀ cf policy, c.Agree m.store cf → policy.Watches ps cf → r policy m = r .resolved m) :
    Safe ps c m r q := by
  obtain ⟨hrun, hagree, hlater, hsound, hpost, -⟩ := h
  refine .intro hrun hagree hlater hsound hpost fun cf policy hcf hp => ?_
  rw [hr cf policy (hagree.trans hlater.store hcf) hp]
  exact hrun

/-- Whatever is read is bound in some frame. -/
theorem read {id : NodeId} {name : Token} (hs : m.Sound ps c) :
    Safe ps c m (fun policy => policy.read id name)
      fun c' m' v => v.Placed ps c' m'.store m'.globals := by
  have hr := Machine.read_apply hs.globals_lt hs.outermost id name
  refine of_resolved (of_eq hs hr rfl rfl rfl rfl rfl fun v hv => ?_) fun _ _ _ hp => by rw [hp.read]
  rw [Store.readIn] at hv
  cases hf : (m.place? m.hops[id]?).bind (m.store.get? · name.lexeme) with
  | none =>
    rw [hf] at hv
    cases hv
  | some w =>
    rw [hf] at hv
    cases hv
    obtain ⟨f, -, hget⟩ := Option.bind_eq_some_iff.mp hf
    exact hs.values f _ _ hget

/-- A write that holds in every context that adds to the present one passes. -/
theorem write {id : NodeId} {name : Token} {v : Value} (hs : m.Sound ps c)
    (hv : v.Placed ps c m.store m.globals)
    (hwrite : ∀ cf, c.Agree m.store cf → Write.Holds ps cf m ⟨id, name, v⟩)
    (hfits : Write.Fits m ⟨id, name, v⟩) :
    Safe ps c m (fun policy => policy.write id name v) fun _ _ _ => True := by
  refine of_resolved ?_ fun cf _ hcf hp => hp.write ⟨id, name, v⟩ m (hwrite cf hcf) hfits
  have hr := Machine.write_apply hs.globals_lt hs.outermost id name v
  cases hf : (m.place? m.hops[id]?).filter (m.store.binds name.lexeme) with
  | none =>
    rw [Machine.onStore_writeIn_of_none hf] at hr
    exact of_eq hs hr rfl rfl rfl rfl rfl fun _ _ => trivial
  | some f =>
    rw [Machine.onStore_writeIn_of_some hf] at hr
    have hplaced := hv.later (.define m.store f name.lexeme v) .refl
    have hbinds := (Option.filter_eq_some_iff.mp hf).2
    have hdefined := hs.define hplaced fun r hr => hs.bounded f r hr name.lexeme hbinds
    exact .intro hr .refl (.define m _ _ _) hdefined (fun _ _ => trivial) fun _ _ _ _ => hr

theorem ofOperation {token : Token} {operation : Operation}
    (hs : m.Sound ps c) (hv : ∀ v, operation = .ok v → v.Placed ps c m.store m.globals) :
    Safe ps c m (fun _ => Run.ofOperation token operation)
      fun c' m' v => v.Placed ps c' m'.store m'.globals := by
  cases operation with
  | ok v => exact pure hs (hv v rfl)
  | error cause => exact fail hs

end Safe

end TreeWalk
