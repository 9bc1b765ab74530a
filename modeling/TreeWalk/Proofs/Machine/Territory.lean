import TreeWalk.Proofs.Machine.Keeping

/-! Code keeps to a territory. If some frames are marked off, and nothing in them leads out of them,
then whatever code does that starts there, it only changes those frames and frames that it opens
itself, and it only comes by functions that belong to such frames. Along the way: the frame that was
current is current again, however the code ends. -/

namespace TreeWalk

/-- Frames marked off in a store, at some time in a run. -/
structure Territory where
  start : Store
  marked : FrameId → Prop

/-- Frames of a territory later in the run: those marked off, and those opened since. -/
def Territory.Has (t : Territory) (store : Store) (f : FrameId) : Prop :=
  t.marked f ∨ t.start.nextFrame ≤ f ∧ f < store.nextFrame

/-- A value with no way out of a territory: a function in it has its frame in the territory. -/
def Territory.Holds (t : Territory) (store : Store) (v : Value) : Prop :=
  ∀ g, v = .closure g → t.Has store g.frame

/-- No frame of a territory leads out of it, and the frames that there were outside of it are as
they were. -/
structure Store.Within (t : Territory) (store : Store) : Prop where
  le : t.start.nextFrame ≤ store.nextFrame
  enclosing : ∀ f g, t.Has store f → store.enclosing? f = some g → t.Has store g
  values : ∀ f name v, t.Has store f → store.get? f name = some v → t.Holds store v
  outside : ∀ f < t.start.nextFrame, ¬ t.marked f → store.frames[f]? = t.start.frames[f]?

/-- A machine that runs code in a territory. -/
structure Machine.Within (t : Territory) (m : Machine) : Prop where
  store : m.store.Within t
  scope : t.Has m.store m.scope
  globals : t.Has m.store m.globals

variable {t : Territory} {store store' : Store} {m m' : Machine} {α β : Type}

namespace Territory

theorem Has.later {f : FrameId} (h : t.Has store f) (hle : store.nextFrame ≤ store'.nextFrame) :
    t.Has store' f := by
  rcases h with h | ⟨hge, hlt⟩
  · exact Or.inl h
  · exact Or.inr ⟨hge, Nat.lt_of_lt_of_le hlt hle⟩

theorem Holds.later {v : Value} (h : t.Holds store v) (hle : store.nextFrame ≤ store'.nextFrame) :
    t.Holds store' v :=
  fun g hg => (h g hg).later hle

theorem holds_literal (l : Literal) : t.Holds store (.literal l) := by
  intro g hg
  cases hg

end Territory

namespace Store.Within

/-- Stepping outward does not lead out of a territory. -/
theorem ancestor? (h : store.Within t) {f g : FrameId} {d : Nat} (hf : t.Has store f)
    (hg : store.ancestor? f d = some g) : t.Has store g := by
  induction d generalizing f with
  | zero =>
    cases hg
    exact hf
  | succ d ih =>
    obtain ⟨outer, he, hg⟩ := Option.bind_eq_some_iff.mp hg
    exact ih (h.enclosing f outer hf he) hg

theorem mem_chainUpTo (h : store.Within t) {f g : FrameId} {n : Nat} (hf : t.Has store f)
    (hg : g ∈ store.chainUpTo n f) : t.Has store g := by
  induction n generalizing f with
  | zero => cases hg
  | succ n ih =>
    rw [Store.chainUpTo] at hg
    rcases List.mem_cons.mp hg with rfl | hg
    · exact hf
    · cases he : store.enclosing? f with
      | none =>
        rw [he] at hg
        cases hg
      | some outer =>
        rw [he] at hg
        exact ih (h.enclosing f outer hf he) hg

theorem define (h : store.Within t) {frame : FrameId} (hframe : t.Has store frame) {name : String}
    {v : Value} (hv : t.Holds store v) : (store.define frame name v).Within t := by
  have hnext : (store.define frame name v).nextFrame = store.nextFrame := Store.nextFrame_define
  have hhas {f : FrameId} (hf : t.Has (store.define frame name v) f) : t.Has store f :=
    hf.later (Nat.le_of_eq hnext)
  have hkeep : store.nextFrame ≤ (store.define frame name v).nextFrame := Nat.le_of_eq hnext.symm
  refine ⟨Nat.le_trans h.le hkeep, fun f g hf hg => ?_, fun f other w hf hw => ?_,
    fun f hf hmarked => ?_⟩
  · rw [Store.enclosing?_define] at hg
    exact (h.enclosing f g (hhas hf) hg).later hkeep
  · rw [Store.get?_define] at hw
    split at hw
    · cases hw
      exact hv.later hkeep
    · exact (h.values f other w (hhas hf) hw).later hkeep
  · -- The frame that changes is marked off or newer than the territory.
    have hne : frame ≠ f := by
      rintro rfl
      rcases hframe with hmark | ⟨hge, -⟩
      · exact hmarked hmark
      · exact Nat.not_lt_of_le hge hf
    rw [Store.getElem?_define, if_neg hne]
    exact h.outside f hf hmarked

theorem allocate (h : store.Within t) {bindings : Bindings} {enclosing : FrameId}
    (hframe : t.Has store enclosing)
    (hbindings : ∀ name v, bindings.lookup name = some v → t.Holds store v) :
    (store.allocate bindings (some enclosing)).Within t := by
  have hgrow : store.nextFrame ≤ (store.allocate bindings (some enclosing)).nextFrame :=
    (Store.Later.allocate store bindings (some enclosing)).le
  have hhas {f : FrameId} (hne : f ≠ store.nextFrame)
      (hf : t.Has (store.allocate bindings (some enclosing)) f) : t.Has store f := by
    rcases hf with hf | ⟨hge, hlt⟩
    · exact Or.inl hf
    · rw [Store.nextFrame_allocate] at hlt
      exact Or.inr ⟨hge, Nat.lt_of_le_of_ne (Nat.le_of_lt_succ hlt) hne⟩
  refine ⟨Nat.le_trans h.le hgrow, fun f g hf hg => ?_, fun f name v hf hv => ?_,
    fun f hf hmarked => ?_⟩
  · rw [Store.enclosing?_allocate] at hg
    split at hg
    · cases hg
      exact hframe.later hgrow
    · next hne => exact (h.enclosing f g (hhas hne hf) hg).later hgrow
  · rw [Store.get?_allocate] at hv
    split at hv
    · exact (hbindings name v hv).later hgrow
    · next hne => exact (h.values f name v (hhas hne hf) hv).later hgrow
  · have hne : f ≠ store.nextFrame := Nat.ne_of_lt (Nat.lt_of_lt_of_le hf h.le)
    rw [Store.getElem?_allocate, if_neg hne]
    exact h.outside f hf hmarked

end Store.Within

namespace Machine.Within

/-- Neither hop counts, whatever they say, nor searches lead out of a territory. -/
theorem target? (h : m.Within t) {id : NodeId} {name : String} {f : FrameId}
    (hf : m.target? id name = some f) : t.Has m.store f := by
  unfold Machine.target? at hf
  split at hf
  · exact h.store.ancestor? h.scope hf
  · exact h.store.mem_chainUpTo h.globals (List.mem_of_find?_eq_some hf)

/-- A machine that is the same as far as frames go. -/
theorem of_store (h : m.Within t) (hstore : m'.store = m.store) (hscope : m'.scope = m.scope)
    (hglobals : m'.globals = m.globals) : m'.Within t := by
  refine ⟨hstore ▸ h.store, ?_, ?_⟩
  · rw [hstore, hscope]
    exact h.scope
  · rw [hstore, hglobals]
    exact h.globals

theorem define (h : m.Within t) {frame : FrameId} (hframe : t.Has m.store frame) {name : String}
    {v : Value} (hv : t.Holds m.store v) :
    ({ m with store := m.store.define frame name v } : Machine).Within t := by
  have hkeep := (Store.Later.define m.store frame name v).le
  exact ⟨h.store.define hframe hv, h.scope.later hkeep, h.globals.later hkeep⟩

/-- Opening a frame inside a territory. The current frame need not be in it before. -/
theorem opened (hstore : m.store.Within t) (hglobals : t.Has m.store m.globals)
    {bindings : Bindings} {enclosing : FrameId} (hframe : t.Has m.store enclosing)
    (hbindings : ∀ name v, bindings.lookup name = some v → t.Holds m.store v) :
    (m.opened bindings enclosing).Within t := by
  have hopen := Store.Later.allocate m.store bindings (some enclosing)
  refine ⟨hstore.allocate hframe hbindings, Or.inr ⟨hstore.le, ?_⟩, hglobals.later hopen.le⟩
  change m.store.nextFrame < (m.store.allocate bindings (some enclosing)).nextFrame
  rw [Store.nextFrame_allocate]
  exact Nat.lt_succ_self _

/-- Back to the frame that was current before. -/
theorem closed (h : m.Within t) (h' : m'.Within t)
    (hle : m.store.nextFrame ≤ m'.store.nextFrame) :
    ({ m' with scope := m.scope } : Machine).Within t :=
  ⟨h'.store, h.scope.later hle, h'.globals⟩

end Machine.Within

/-- An action that keeps to a territory, and whose result has the property `q`. -/
structure Stays (t : Territory) (names : List String) (m : Machine) (r : Run α)
    (q : Store → α → Prop) : Prop where
  keeps : m.Keeps names (r m).2
  within : (r m).2.Within t
  post : ∀ a, (r m).1 = .ok a → q (r m).2.store a

namespace Stays

variable {names names' : List String} {r : Run α} {f : α → Run β} {q : Store → α → Prop}
  {q' : Store → β → Prop} {a : α}

/-- Actions that change no frame. -/
theorem of_eq {result : Except Fault α} (hm : m.Within t) (hr : r m = (result, m'))
    (hstore : m'.store = m.store) (hscope : m'.scope = m.scope) (hglobals : m'.globals = m.globals)
    (hhops : m'.hops = m.hops) (hflush : m'.sink.flushFails = m.sink.flushFails)
    (hq : ∀ a, result = .ok a → q m.store a) : Stays t names m r q := by
  refine ⟨?_, ?_, ?_⟩ <;> rw [hr]
  · exact .of_store hstore hscope hglobals hhops hflush
  · exact hm.of_store hstore hscope hglobals
  · dsimp only
    rw [hstore]
    exact hq

theorem pure (hm : m.Within t) (hq : q m.store a) : Stays t names m (pure a) q :=
  of_eq hm rfl rfl rfl rfl rfl rfl fun a' ha => by
    cases ha
    exact hq

theorem throw {fault : Fault} (hm : m.Within t) : Stays t names m (throw fault) q := by
  have hr : (MonadExcept.throw fault : Run α) m = (.error fault, m) := rfl
  exact of_eq hm hr rfl rfl rfl rfl rfl fun a ha => by cases ha

theorem observe (event : Event) (hm : m.Within t) :
    Stays t names m (Policy.resolved.observe event) fun _ _ => True :=
  pure hm trivial

theorem fail {token : Token} {cause : RuntimeCause} (hm : m.Within t) :
    Stays t names m (Run.fail token cause) q :=
  throw hm

theorem weaken (h : Stays t names m r q) (hsub : names ⊆ names') : Stays t names' m r q :=
  ⟨h.keeps.weaken hsub, h.within, h.post⟩

theorem of_quiet (h : Stays t [] m r q) : Stays t names m r q :=
  h.weaken (List.nil_subset names)

theorem bind (hr : Stays t names m r q)
    (hf : ∀ m' a, m.Keeps names m' → m'.Within t → q m'.store a →
      Stays t names m' (f a) q') :
    Stays t names m (r >>= f) q' := by
  obtain ⟨hkeeps, hwithin, hpost⟩ := hr
  cases h : r m with
  | mk result m₁ =>
    rw [h] at hkeeps hwithin hpost
    cases result with
    | error fault =>
      refine ⟨?_, ?_, fun b hb => ?_⟩
      · rw [Run.bind_apply, h]
        exact hkeeps
      · rw [Run.bind_apply, h]
        exact hwithin
      · rw [Run.bind_apply, h] at hb
        cases hb
    | ok a =>
      obtain ⟨hkeeps₂, hwithin₂, hpost₂⟩ := hf m₁ a hkeeps hwithin (hpost a rfl)
      refine ⟨?_, ?_, ?_⟩ <;> rw [Run.bind_apply, h]
      · exact hkeeps.trans hkeeps₂
      · exact hwithin₂
      · exact hpost₂

theorem discard (h : Stays t names m r q) :
    Stays t names m (discard r) fun _ _ => True := by
  rw [Run.discard_eq]
  exact h.bind fun _ _ _ hm _ => pure hm trivial

theorem ite {b : Prop} [Decidable b] {r' : Run α} (hr : Stays t names m r q)
    (hr' : Stays t names m r' q) : Stays t names m (if b then r else r') q := by
  split
  · exact hr
  · exact hr'

/-- Only what an action does in the given machine matters. -/
theorem congr {r' : Run α} (h : Stays t names m r q) (hr : r' m = r m) :
    Stays t names m r' q := by
  refine ⟨?_, ?_, ?_⟩ <;> rw [hr]
  · exact h.keeps
  · exact h.within
  · exact h.post

theorem print {text : String} (hm : m.Within t) :
    Stays t names m (Run.print text) fun _ _ => True := by
  have hr := Run.print_apply text m
  exact of_eq hm hr rfl rfl rfl rfl (m.sink.flushFails_write text) fun _ _ => trivial

theorem flush (hm : m.Within t) : Stays t names m Run.flush fun _ _ => True := by
  have hr := Run.flush_apply m
  exact of_eq hm hr rfl rfl rfl rfl rfl fun _ _ => trivial

theorem ofOperation {token : Token} {operation : Operation} (hm : m.Within t)
    (hliteral : ∀ v, operation = .ok v → ∃ l, v = .literal l) :
    Stays t names m (Run.ofOperation token operation) t.Holds := by
  cases operation with
  | error cause => exact fail hm
  | ok v =>
    obtain ⟨l, rfl⟩ := hliteral v rfl
    exact pure hm (Territory.holds_literal l)

theorem read {id : NodeId} {name : Token} (hm : m.Within t) :
    Stays t names m (Policy.resolved.read id name) t.Holds := by
  refine of_eq hm (m.resolved_read id name) rfl rfl rfl rfl rfl fun v hv => ?_
  have hok : (Policy.resolved.read id name m).1 = .ok v := by rwa [m.resolved_read]
  obtain ⟨frame, hframe, hget⟩ := Machine.resolved_read_ok hok
  exact hm.store.values frame _ v (hm.target? hframe) hget

theorem write {id : NodeId} {name : Token} {v : Value} (hm : m.Within t)
    (hv : t.Holds m.store v) :
    Stays t names m (Policy.resolved.write id name v) fun _ _ => True := by
  rcases m.resolved_write_cases id name v with ⟨frame, hframe, hbinds, hr⟩ | hr
  · refine ⟨?_, ?_, fun _ _ => trivial⟩ <;> rw [hr]
    · exact .assign v hbinds
    · exact hm.define (hm.target? hframe) hv
  · exact of_eq hm hr rfl rfl rfl rfl rfl fun _ _ => trivial

theorem define {name : Token} {v : Value} (hm : m.Within t) (hv : t.Holds m.store v) :
    Stays t [name.lexeme] m (Run.define name v) fun _ _ => True :=
  ⟨.define m name.lexeme v, hm.define hm.scope hv, fun _ _ => trivial⟩

/-- A new function belongs to the current frame. -/
theorem makeClosure {name : Token} {params : List Token} {body : List Stmt} (hm : m.Within t) :
    Stays t names m (Run.makeClosure name params body) t.Holds := by
  refine of_eq hm rfl rfl rfl rfl rfl rfl fun v hv => ?_
  cases hv
  rintro g ⟨⟩
  exact hm.scope

/-- Host functions belong to no frame. -/
theorem makeHost {name : String} {arity : Nat} {body : HostBody} (hm : m.Within t) :
    Stays t names m (Run.makeHost name arity body) t.Holds := by
  refine of_eq hm rfl rfl rfl rfl rfl rfl fun v hv => ?_
  cases hv
  rintro g ⟨⟩

theorem inNewFrame {bindings : Bindings} {enclosing : FrameId} {action : Run α}
    (hm : m.Within t) (h : Stays t names' (m.opened bindings enclosing) action q) :
    Stays t names m (Run.inNewFrame bindings enclosing action) q := by
  have hopen := Store.Later.allocate m.store bindings (some enclosing)
  exact ⟨h.keeps.closed, hm.closed h.within (Nat.le_trans hopen.le h.keeps.later.store.le), h.post⟩

end Stays

/-- The names that a statement may declare in the scope it stands in, be it in a branch of it. -/
def Stmt.declaredNames : Stmt → List String
  | declare name _ => [name.lexeme]
  | function name _ _ => [name.lexeme]
  | ifThen _ thenBranch => thenBranch.declaredNames
  | ifElse _ thenBranch elseBranch => thenBranch.declaredNames ++ elseBranch.declaredNames
  | whileLoop _ body => body.declaredNames
  | expression _ | print _ | block _ | returnFrom _ _ => []

/-- Bodies of functions keep to a territory that they start in. -/
def BodiesStay (t : Territory) (run : Region → Run Flow) : Prop :=
  ∀ (m : Machine) (r : Region), m.Within t →
    Stays t (r.body.flatMap Stmt.declaredNames) m (run r) fun store flow => t.Holds store flow.result

section Evaluation

variable {run : Region → Run Flow}

/-- The arguments of a call are bound in the territory. -/
theorem Territory.holds_ofArguments {params : List Token} {arguments : List Value}
    (harguments : ∀ v ∈ arguments, t.Holds store v) {name : String} {v : Value}
    (h : (Bindings.ofArguments params arguments).lookup name = some v) : t.Holds store v :=
  harguments v (Bindings.mem_of_lookup_ofArguments h).1

theorem Value.call_stays (hrun : BodiesStay t run) (hm : m.Within t) {paren : Token}
    {arguments : List Value} {f : Value} (hf : t.Holds m.store f)
    (harguments : ∀ v ∈ arguments, t.Holds m.store v) :
    Stays t [] m (f.call run paren arguments) t.Holds := by
  cases f with
  | literal _ => exact .fail hm
  | host f =>
    simp only [Value.call]
    refine .ite (.fail hm) ?_
    cases f.body (arguments.map Value.view) with
    | failure message => exact .fail hm
    | literal l => exact .pure hm (Territory.holds_literal l)
    | argument i => exact .pure hm (harguments _ (List.get_mem ..))
    | function name arity body => exact .makeHost hm
  | closure f =>
    simp only [Value.call]
    refine .ite (.fail hm) ?_
    have hbindings (name : String) (v : Value)
        (hv : (Bindings.ofArguments f.params arguments).lookup name = some v) :
        t.Holds m.store v := Territory.holds_ofArguments harguments hv
    have hopened := Machine.Within.opened hm.store hm.globals (hf f rfl) hbindings
    refine (Stays.inNewFrame hm (hrun _ ⟨f.params, f.body⟩ hopened)).bind
      fun m' flow _ hm' hflow => ?_
    exact .pure hm' hflow

mutual

theorem Expr.eval_stays (hrun : BodiesStay t run) {m : Machine} (hm : m.Within t) (e : Expr) :
    Stays t [] m (e.eval .resolved run) t.Holds := by
  have hobserve : Stays t [] m (Policy.resolved.observe (.evaluation e)) fun _ _ => True :=
    Stays.observe _ hm
  match e with
  | .literal value =>
    simp only [Expr.eval]
    exact hobserve.bind fun m' _ _ hm' _ => .pure hm' (Territory.holds_literal value)
  | .grouping inner =>
    simp only [Expr.eval]
    exact hobserve.bind fun m' _ _ hm' _ => inner.eval_stays hrun hm'
  | .unary operator right =>
    simp only [Expr.eval]
    refine hobserve.bind fun m₁ _ _ hm₁ _ => (right.eval_stays hrun hm₁).bind
      fun m₂ v _ hm₂ _ => ?_
    exact .ofOperation hm₂ fun w => Operation.unary_literal
  | .binary left operator right =>
    simp only [Expr.eval]
    refine hobserve.bind fun m₁ _ _ hm₁ _ => (left.eval_stays hrun hm₁).bind
      fun m₂ v _ hm₂ _ => (right.eval_stays hrun hm₂).bind fun m₃ w _ hm₃ _ => ?_
    exact .ofOperation hm₃ fun u => Operation.binary_literal
  | .logical left operator right =>
    simp only [Expr.eval]
    refine hobserve.bind fun m₁ _ _ hm₁ _ => (left.eval_stays hrun hm₁).bind
      fun m₂ v _ hm₂ hv => ?_
    exact .ite (.pure hm₂ hv) (right.eval_stays hrun hm₂)
  | .var id name =>
    simp only [Expr.eval]
    exact hobserve.bind fun m' _ _ hm' _ => .read hm'
  | .assign id name value =>
    simp only [Expr.eval]
    refine hobserve.bind fun m₁ _ _ hm₁ _ => (value.eval_stays hrun hm₁).bind
      fun m₂ v _ hm₂ hv => (Stays.write hm₂ hv).bind fun m₃ _ hkeeps hm₃ _ => ?_
    exact .pure hm₃ (hv.later hkeeps.later.store.le)
  | .call callee paren arguments =>
    simp only [Expr.eval]
    refine hobserve.bind fun m₁ _ _ hm₁ _ => (callee.eval_stays hrun hm₁).bind
      fun m₂ f _ hm₂ hf => (Expr.evalAll_stays hrun hm₂ arguments).bind
        fun m₃ vs hkeeps hm₃ hvs => ?_
    exact Value.call_stays hrun hm₃ (hf.later hkeeps.later.store.le) hvs

theorem Expr.evalAll_stays (hrun : BodiesStay t run) {m : Machine} (hm : m.Within t)
    (es : List Expr) :
    Stays t [] m (Expr.evalAll .resolved run es)
      fun store vs => ∀ v ∈ vs, t.Holds store v := by
  match es with
  | [] =>
    simp only [Expr.evalAll]
    exact .pure hm fun v hv => by cases hv
  | e :: es =>
    simp only [Expr.evalAll]
    refine (e.eval_stays hrun hm).bind fun m₁ v _ hm₁ hv =>
      (Expr.evalAll_stays hrun hm₁ es).bind fun m₂ vs hkeeps hm₂ hvs => .pure hm₂ fun w hw => ?_
    rcases List.mem_cons.mp hw with rfl | hw
    · exact hv.later hkeeps.later.store.le
    · exact hvs w hw

end

theorem Expr.evalOption_stays (hrun : BodiesStay t run) (hm : m.Within t) (e : Option Expr) :
    Stays t [] m (Expr.evalOption .resolved run e) t.Holds := by
  cases e with
  | none => exact .pure hm (Territory.holds_literal .nil)
  | some e => exact e.eval_stays hrun hm

end Evaluation

section Execution

variable {run : Region → Run Flow}

/-- By induction on the rounds. -/
theorem Run.iterate_stays {names : List String} {step : Run (Option Flow)}
    (hstep : ∀ m : Machine, m.Within t →
      Stays t names m step fun store o => ∀ flow ∈ o, t.Holds store flow.result)
    (limit : Nat) {m : Machine} (hm : m.Within t) :
    Stays t names m (Run.iterate step limit) fun store flow => t.Holds store flow.result := by
  induction limit generalizing m with
  | zero => exact .throw hm
  | succ limit ih =>
    rw [Run.iterate_succ]
    refine (hstep m hm).bind fun m' o _ hm' ho => ?_
    cases o with
    | none => exact .pure hm' (Territory.holds_literal .nil)
    | some flow =>
      cases flow with
      | normal => exact ih hm'
      | returned v => exact .pure hm' (ho (.returned v) rfl)

mutual

theorem Stmt.exec_stays (hrun : BodiesStay t run) (limit : Nat) {m : Machine} (hm : m.Within t)
    (s : Stmt) :
    Stays t s.declaredNames m (s.exec .resolved limit run)
      fun store flow => t.Holds store flow.result := by
  have hnormal {names : List String} {m' : Machine} (hm' : m'.Within t) :
      Stays t names m' (pure Flow.normal) fun store flow => t.Holds store flow.result :=
    .pure hm' (Territory.holds_literal .nil)
  match s with
  | .expression e =>
    simp only [Stmt.exec]
    exact (e.eval_stays hrun hm).of_quiet.discard.bind fun _ _ _ hm₁ _ => hnormal hm₁
  | .print e =>
    simp only [Stmt.exec]
    exact (e.eval_stays hrun hm).of_quiet.bind fun _ v _ hm₁ _ =>
      (Stays.print hm₁).bind fun _ _ _ hm₂ _ => hnormal hm₂
  | .declare name initializer =>
    simp only [Stmt.exec]
    exact (Expr.evalOption_stays hrun hm initializer).of_quiet.bind fun _ v _ hm₁ hv =>
      (Stays.define hm₁ hv).bind fun _ _ _ hm₂ _ => hnormal hm₂
  | .block body =>
    -- A frame that opens empty brings no value along from outside the territory.
    have hopened : (m.opened [] m.scope).Within t :=
      Machine.Within.opened hm.store hm.globals hm.scope fun name v hv => by cases hv
    have hbody := (Stays.observe (.entry ⟨[], body⟩) hopened).bind
      fun m₁ _ _ hm₁ _ => Stmt.execAll_stays hrun limit hm₁ body
    refine (Stays.inNewFrame hm hbody).congr ?_
    rw [Stmt.exec, Run.bind_apply, Run.get_apply]
  | .ifThen condition thenBranch =>
    simp only [Stmt.exec]
    exact (condition.eval_stays hrun hm).of_quiet.bind fun _ v _ hm₁ _ =>
      .ite (thenBranch.exec_stays hrun limit hm₁) (hnormal hm₁)
  | .ifElse condition thenBranch elseBranch =>
    simp only [Stmt.exec]
    exact (condition.eval_stays hrun hm).of_quiet.bind fun _ v _ hm₁ _ =>
      .ite ((thenBranch.exec_stays hrun limit hm₁).weaken (List.subset_append_left ..))
        ((elseBranch.exec_stays hrun limit hm₁).weaken (List.subset_append_right ..))
  | .whileLoop condition body =>
    simp only [Stmt.exec]
    refine Run.iterate_stays (fun m hm => ?_) limit hm
    refine (condition.eval_stays hrun hm).of_quiet.bind fun m₁ v _ hm₁ _ => ?_
    refine .ite ?_ (.pure hm₁ fun flow hf => by cases hf)
    refine (body.exec_stays hrun limit hm₁).bind fun m₂ flow _ hm₂ hflow =>
      .pure hm₂ fun flow' hf => ?_
    cases hf
    exact hflow
  | .function name params body =>
    simp only [Stmt.exec]
    exact (Stays.makeClosure hm).bind fun _ v _ hm₁ hv =>
      (Stays.define hm₁ hv).bind fun _ _ _ hm₂ _ => hnormal hm₂
  | .returnFrom keyword value =>
    simp only [Stmt.exec]
    exact (Expr.evalOption_stays hrun hm value).of_quiet.bind fun _ v _ hm₁ hv => .pure hm₁ hv

theorem Stmt.execAll_stays (hrun : BodiesStay t run) (limit : Nat) {m : Machine}
    (hm : m.Within t) (ss : List Stmt) :
    Stays t (ss.flatMap Stmt.declaredNames) m (Stmt.execAll .resolved limit run ss)
      fun store flow => t.Holds store flow.result := by
  match ss with
  | [] =>
    simp only [Stmt.execAll]
    exact .pure hm (Territory.holds_literal .nil)
  | s :: ss =>
    simp only [Stmt.execAll]
    rw [List.flatMap_cons]
    refine ((s.exec_stays hrun limit hm).weaken (List.subset_append_left ..)).bind
      fun m₁ flow _ hm₁ hflow => ?_
    cases flow with
    | normal =>
      exact (Stmt.execAll_stays hrun limit hm₁ ss).weaken (List.subset_append_right ..)
    | returned v => exact .pure hm₁ hflow

end

/-- By induction on the fuel, which calls inside calls use up. -/
theorem runBody_stays (fuel : Nat) : BodiesStay t (runBody .resolved fuel) := by
  induction fuel with
  | zero =>
    intro m r hm
    exact .throw hm
  | succ fuel ih =>
    intro m r hm
    simp only [runBody]
    exact (Stays.observe (.entry r) hm).bind fun m₁ _ _ hm₁ _ => Stmt.execAll_stays ih fuel hm₁ r.body

theorem Run.executeEach_stays (fuel : Nat) {m : Machine} (hm : m.Within t) (ss : List Stmt) :
    Stays t (ss.flatMap Stmt.declaredNames) m (Run.executeEach .resolved fuel ss) fun _ _ => True := by
  induction ss generalizing m with
  | nil => exact .pure hm trivial
  | cons s ss ih =>
    simp only [Run.executeEach]
    rw [List.flatMap_cons]
    have hfirst := (s.exec_stays (runBody_stays fuel) fuel hm).discard
    exact (hfirst.weaken (List.subset_append_left ..)).bind fun _ _ _ hm₁ _ =>
      (ih hm₁).weaken (List.subset_append_right ..)

theorem Run.interpret_stays (fuel : Nat) (hm : m.Within t) (program : List Stmt) :
    Stays t (program.flatMap Stmt.declaredNames) m (Run.interpret .resolved fuel program) fun _ _ => True := by
  simp only [Run.interpret]
  exact (Run.executeEach_stays fuel hm program).bind fun _ _ _ hm₁ _ => .flush hm₁

end Execution

/-- A territory that all frames belong to. -/
def Territory.everywhere (store : Store) : Territory :=
  ⟨store, fun _ => True⟩

theorem Machine.within_everywhere (m : Machine) : m.Within (.everywhere m.store) := by
  have hhas (store : Store) (f : FrameId) : (Territory.everywhere m.store).Has store f :=
    Or.inl trivial
  refine ⟨⟨Nat.le_refl _, fun _ _ _ _ => hhas _ _, fun _ _ _ _ _ _ _ => hhas _ _, ?_⟩, hhas _ _,
    hhas _ _⟩
  exact fun f _ hmarked => absurd trivial hmarked

end TreeWalk
