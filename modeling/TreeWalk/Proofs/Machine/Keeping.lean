import TreeWalk.Proofs.Machine.Basic

/-! What the elementary actions of a machine keep, whatever the machine: frames stay, no frame but
the current one comes to bind further names, and variables are looked up without a trace. -/

namespace TreeWalk

variable {m m' m'' : Machine}

/-- A machine later in a run. Of the frames that there were, only the current one may have come to
bind further names, and only the given ones. -/
structure Machine.Keeps (names : List String) (m m' : Machine) : Prop where
  later : m.Later m'
  bound : ∀ f < m.store.nextFrame, ∀ name, m'.store.binds name f = true →
    m.store.binds name f = true ∨ f = m.scope ∧ name ∈ names

namespace Machine.Keeps

variable {names names' : List String}

theorem refl (m : Machine) : m.Keeps names m :=
  ⟨.refl m, fun _ _ _ h => Or.inl h⟩

theorem trans (h : m.Keeps names m') (h' : m'.Keeps names m'') : m.Keeps names m'' := by
  refine ⟨h.later.trans h'.later, fun f hf name hbinds => ?_⟩
  have hf' : f < m'.store.nextFrame := Nat.lt_of_lt_of_le hf h.later.store.le
  rcases h'.bound f hf' name hbinds with hbinds | ⟨hscope, hname⟩
  · exact h.bound f hf name hbinds
  · exact Or.inr ⟨hscope.trans h.later.scope, hname⟩

/-- More names may have been declared. -/
theorem weaken (h : m.Keeps names m') (hsub : names ⊆ names') : m.Keeps names' m' :=
  ⟨h.later, fun f hf name hbinds =>
    (h.bound f hf name hbinds).imp_right fun hdeclared => ⟨hdeclared.1, hsub hdeclared.2⟩⟩

/-- Actions that change no frame. -/
theorem of_store (hstore : m'.store = m.store) (hscope : m'.scope = m.scope)
    (hglobals : m'.globals = m.globals) (hhops : m'.hops = m.hops)
    (hflush : m'.sink.flushFails = m.sink.flushFails) : m.Keeps names m' := by
  refine ⟨⟨hstore ▸ .refl _, hscope, hglobals, hhops, hflush⟩, fun f _ name hbinds => ?_⟩
  rw [hstore] at hbinds
  exact Or.inl hbinds

/-- Declaring a name changes the current frame only. -/
theorem define (m : Machine) (name : String) (v : Value) :
    m.Keeps [name] { m with store := m.store.define m.scope name v } := by
  refine ⟨.define m m.scope name v, fun f _ other hbinds => ?_⟩
  by_cases hsame : m.scope = f ∧ other = name
  · exact Or.inr ⟨hsame.1.symm, List.mem_singleton.mpr hsame.2⟩
  · have hnot : ¬ (m.scope = f ∧ other = name ∧ f < m.store.nextFrame) := fun h' =>
      hsame ⟨h'.1, h'.2.1⟩
    left
    simpa [Store.binds, Store.get?_define, hnot] using hbinds

/-- Changing a name that a frame binds already makes it bind no other one. -/
theorem assign {frame : FrameId} {name : String} (v : Value)
    (h : m.store.binds name frame = true) :
    m.Keeps names { m with store := m.store.define frame name v } := by
  refine ⟨.define m frame name v, fun f _ other hbinds => Or.inl ?_⟩
  by_cases hsame : frame = f ∧ other = name
  · obtain ⟨rfl, rfl⟩ := hsame
    exact h
  · have hnot : ¬ (frame = f ∧ other = name ∧ f < m.store.nextFrame) := fun h' =>
      hsame ⟨h'.1, h'.2.1⟩
    simpa [Store.binds, Store.get?_define, hnot] using hbinds

/-- What code declares in a frame opened for it is gone with the frame. -/
theorem closed {bindings : Bindings} {enclosing : FrameId}
    (h : (m.opened bindings enclosing).Keeps names' m') :
    m.Keeps names { m' with scope := m.scope } := by
  refine ⟨h.later.closed, fun f hf name hbinds => Or.inl ?_⟩
  have hopen := Store.Later.allocate m.store bindings (some enclosing)
  rcases h.bound f (Nat.lt_of_lt_of_le hf hopen.le) name hbinds with hkept | ⟨hscope, -⟩
  · change (m.store.allocate bindings (some enclosing)).binds name f = true at hkept
    rwa [Store.binds, Store.get?_allocate_of_lt hf] at hkept
  · exact absurd hscope (Nat.ne_of_lt hf)

end Machine.Keeps

namespace Machine

/-- The frame where a variable is looked up: so many steps outward, or where a search from the
globals outward finds it. -/
def target? (m : Machine) (id : NodeId) (name : String) : Option FrameId :=
  match m.hops[id]? with
  | some d => m.store.ancestor? m.scope d
  | none => m.store.holder? m.globals name

theorem resolved_read (m : Machine) (id : NodeId) (name : Token) :
    Policy.resolved.read id name m =
      ((m.store.readIn (m.target? id name.lexeme) name).mapError .failure, m) := by
  simp only [Policy.resolved, target?, Run.bind_apply, Run.get_apply]
  cases m.hops[id]? with
  | some d => exact Run.ofExcept_apply _ m
  | none => exact Run.ofExcept_apply _ m

theorem resolved_write (m : Machine) (id : NodeId) (name : Token) (v : Value) :
    Policy.resolved.write id name v m =
      Run.onStore (Store.writeIn (m.target? id name.lexeme) name v) m := by
  simp only [Policy.resolved, target?]
  cases m.hops[id]? <;> rfl

/-- A write finds a frame that binds the name and changes it there, or changes nothing. -/
theorem resolved_write_cases (m : Machine) (id : NodeId) (name : Token) (v : Value) :
    (∃ frame, m.target? id name.lexeme = some frame ∧ m.store.binds name.lexeme frame = true ∧
      Policy.resolved.write id name v m =
        (.ok (), { m with store := m.store.define frame name.lexeme v })) ∨
    Policy.resolved.write id name v m = (.error (.failure (Store.undefined name)), m) := by
  rw [resolved_write]
  cases h : (m.target? id name.lexeme).filter (m.store.binds name.lexeme) with
  | none => exact Or.inr (onStore_writeIn_of_none h)
  | some frame =>
    obtain ⟨hframe, hbinds⟩ := Option.filter_eq_some_iff.mp h
    exact Or.inl ⟨frame, hframe, hbinds, onStore_writeIn_of_some h⟩

/-- A value that is read is bound in the frame where it is looked up. -/
theorem resolved_read_ok {id : NodeId} {name : Token} {v : Value}
    (h : (Policy.resolved.read id name m).1 = .ok v) :
    ∃ frame, m.target? id name.lexeme = some frame ∧
      m.store.get? frame name.lexeme = some v := by
  rw [resolved_read, Store.readIn] at h
  cases hv : (m.target? id name.lexeme).bind (m.store.get? · name.lexeme) with
  | none =>
    rw [hv] at h
    cases h
  | some w =>
    rw [hv] at h
    cases h
    exact Option.bind_eq_some_iff.mp hv

end Machine

end TreeWalk
