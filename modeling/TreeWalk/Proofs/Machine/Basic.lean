import TreeWalk.Machine.Eval
import TreeWalk.Proofs.Store.Later

/-! Elementary facts of the machine: what operators yield, in which frame a variable is looked for,
and what machines in the course of a run have in common. -/

namespace TreeWalk

/-- Operators make constants only. -/
theorem Operation.unary_literal {operator : Kind} {v w : Value}
    (h : Operation.unary operator v = .ok w) : ∃ l, w = .literal l := by
  unfold Operation.unary at h
  split at h
  · split at h
    · cases h
      exact ⟨_, rfl⟩
    · cases h
  · cases h
    exact ⟨_, rfl⟩
  · cases h

theorem Operation.onNumbers_literal {v w result : Value} {f : Float → Float → Operation}
    (hf : ∀ x y u, f x y = .ok u → ∃ l, u = .literal l)
    (h : Operation.onNumbers v w f = .ok result) : ∃ l, result = .literal l := by
  unfold Operation.onNumbers at h
  split at h
  · exact hf _ _ _ h
  · cases h

theorem Operation.binary_literal {operator : Kind} {v w result : Value}
    (h : Operation.binary operator v w = .ok result) : ∃ l, result = .literal l := by
  have hnumber : ∀ (f : Float → Float → Float) x y u,
      Operation.number (f x y) = .ok u → ∃ l, u = Value.literal l := by
    intro f x y u hu
    cases hu
    exact ⟨_, rfl⟩
  have htruth : ∀ b u, Operation.truth b = .ok u → ∃ l, u = Value.literal l := by
    intro b u hu
    cases hu
    exact ⟨_, rfl⟩
  unfold Operation.binary at h
  split at h
  · unfold Operation.add at h
    split at h <;> cases h <;> exact ⟨_, rfl⟩
  · exact Operation.onNumbers_literal (hnumber (· - ·)) h
  · exact Operation.onNumbers_literal (hnumber (· * ·)) h
  · refine Operation.onNumbers_literal (fun x y u hu => ?_) h
    unfold Operation.divide at hu
    split at hu
    · cases hu
    · exact hnumber (· / ·) x y u hu
  · exact Operation.onNumbers_literal (fun x y => htruth _) h
  · exact Operation.onNumbers_literal (fun x y => htruth _) h
  · exact Operation.onNumbers_literal (fun x y => htruth _) h
  · exact Operation.onNumbers_literal (fun x y => htruth _) h
  · exact htruth _ _ h
  · exact htruth _ _ h
  · cases h

section Views

variable {v v' w w' : Value}

/-- Values that look the same are one constant, or are both functions. -/
theorem Value.view_cases (h : v.view = v'.view) :
    v = v' ∨ (∀ l, v ≠ .literal l) ∧ ∀ l, v' ≠ .literal l := by
  cases v with
  | literal l =>
    cases v' with
    | literal l' =>
      cases h
      exact Or.inl rfl
    | closure _ | host _ => cases h
  | closure _ | host _ =>
    cases v' with
    | literal _ => cases h
    | closure _ | host _ => exact Or.inr ⟨fun _ => nofun, fun _ => nofun⟩

/-- Operators tell values apart by their views only. -/
theorem Operation.unary_of_view (h : v.view = v'.view) (operator : Kind) :
    Operation.unary operator v = Operation.unary operator v' := by
  rcases Value.view_cases h with rfl | ⟨hv, hv'⟩
  · rfl
  · have hminus {u : Value} (hu : ∀ l, u ≠ .literal l) :
        Operation.unary (.punctuator .minus) u = .error .operandNotNumber := by
      cases u with
      | literal l => exact absurd rfl (hu l)
      | closure _ | host _ => rfl
    have htruthy : v.truthy = v'.truthy := congrArg View.truthy h
    unfold Operation.unary
    split
    · exact (hminus hv).trans (hminus hv').symm
    · rw [htruthy]
    · rfl

theorem Operation.binary_of_view (h : v.view = v'.view) (h' : w.view = w'.view)
    (operator : Kind) : Operation.binary operator v w = Operation.binary operator v' w' := by
  have hsame : v.same w = v'.same w' := by rw [Value.same, h, h', Value.same]
  -- Functions are neither added nor taken for numbers, on whichever side they are.
  have hleft {u : Value} (hu : ∀ l, u ≠ .literal l) (w : Value) :
      Operation.add u w = .error .operandsNotAddable ∧
        ∀ f, Operation.onNumbers u w f = .error .operandsNotNumbers := by
    cases u with
    | literal l => exact absurd rfl (hu l)
    | closure _ | host _ => exact ⟨rfl, fun _ => rfl⟩
  have hright {u : Value} (hu : ∀ l, u ≠ .literal l) (v : Value) :
      Operation.add v u = .error .operandsNotAddable ∧
        ∀ f, Operation.onNumbers v u f = .error .operandsNotNumbers := by
    cases u with
    | literal l => exact absurd rfl (hu l)
    | closure _ | host _ => rcases v with (_ | _ | _ | _) | _ | _ <;> exact ⟨rfl, fun _ => rfl⟩
  have hboth : Operation.add v w = Operation.add v' w' ∧
      ∀ f, Operation.onNumbers v w f = Operation.onNumbers v' w' f := by
    rcases Value.view_cases h with rfl | ⟨hv, hv'⟩
    · rcases Value.view_cases h' with rfl | ⟨hw, hw'⟩
      · exact ⟨rfl, fun _ => rfl⟩
      · exact ⟨(hright hw v).1.trans (hright hw' v).1.symm,
          fun f => ((hright hw v).2 f).trans ((hright hw' v).2 f).symm⟩
    · exact ⟨(hleft hv w).1.trans (hleft hv' w').1.symm,
        fun f => ((hleft hv w).2 f).trans ((hleft hv' w').2 f).symm⟩
  simp only [Operation.binary, hsame, hboth.1, hboth.2]

end Views

/-- Printing fails if the sink does, which keeps what it has taken. -/
theorem Run.print_apply (text : String) (m : Machine) : Run.print text m =
    ((m.sink.write text).1.mapError fun cause => .failure (.sink cause),
      { m with sink := (m.sink.write text).2 }) := by
  unfold Run.print
  split
  · next h => rw [h]; rfl
  · next h => rw [h]; rfl

theorem Run.flush_apply (m : Machine) :
    Run.flush m = (m.sink.flush.mapError fun cause => .failure (.sink cause), m) := by
  simp only [Run.flush, Run.bind_apply, Run.get_apply]
  cases m.sink.flush <;> rfl

theorem Run.ofExcept_apply (result : Except Diagnostic Value) (m : Machine) :
    Run.ofExcept result m = (result.mapError .failure, m) := by
  cases result <;> rfl

namespace Machine

/-- The frame where a variable with the given hop count is looked for. -/
def place? (m : Machine) : Option Nat → Option FrameId
  | some d => m.store.ancestor? m.scope d
  | none => some m.globals

variable {m : Machine}

theorem read_apply (hlt : m.globals < m.store.nextFrame)
    (houter : m.store.enclosing? m.globals = none) (id : NodeId) (name : Token) :
    Policy.resolved.read id name m =
      ((m.store.readIn (m.place? m.hops[id]?) name).mapError .failure, m) := by
  simp only [Policy.resolved, Run.bind_apply, Run.get_apply]
  cases m.hops[id]? with
  | some d => exact Run.ofExcept_apply _ m
  | none =>
    dsimp only
    rw [Run.ofExcept_apply, Store.get_of_outermost hlt houter]
    rfl

theorem write_apply (hlt : m.globals < m.store.nextFrame)
    (houter : m.store.enclosing? m.globals = none) (id : NodeId) (name : Token) (v : Value) :
    Policy.resolved.write id name v m =
      Run.onStore (Store.writeIn (m.place? m.hops[id]?) name v) m := by
  simp only [Policy.resolved]
  cases m.hops[id]? with
  | some d => rfl
  | none =>
    dsimp only
    rw [Run.onStore_apply, Store.assign_of_outermost hlt houter]
    rfl

theorem onStore_writeIn_of_some {frame : Option FrameId} {name : Token} {v : Value} {f : FrameId}
    (hf : frame.filter (m.store.binds name.lexeme) = some f) :
    Run.onStore (Store.writeIn frame name v) m =
      (.ok (), { m with store := m.store.define f name.lexeme v }) := by
  rw [Run.onStore_apply, Store.writeIn, hf]
  rfl

theorem onStore_writeIn_of_none {frame : Option FrameId} {name : Token} {v : Value}
    (hf : frame.filter (m.store.binds name.lexeme) = none) :
    Run.onStore (Store.writeIn frame name v) m =
      (.error (.failure (Store.undefined name)), m) := by
  rw [Run.onStore_apply, Store.writeIn, hf]
  rfl

end Machine

/-- What is written does not decide whether flushing fails. -/
theorem Sink.flushFails_write (text : String) (s : Sink) :
    (s.write text).2.flushFails = s.flushFails := by
  unfold write
  cases s.room with
  | none => rfl
  | some n =>
    dsimp only
    split <;> rfl

/-- A machine later in a run, with the same frame current. -/
structure Machine.Later (m m' : Machine) : Prop where
  store : m.store.Later m'.store
  scope : m'.scope = m.scope
  globals : m'.globals = m.globals
  hops : m'.hops = m.hops
  flushFails : m'.sink.flushFails = m.sink.flushFails

namespace Machine.Later

variable {m m' m'' : Machine}

theorem refl (m : Machine) : m.Later m :=
  ⟨.refl _, rfl, rfl, rfl, rfl⟩

theorem trans (h : m.Later m') (h' : m'.Later m'') : m.Later m'' :=
  ⟨h.store.trans h'.store, h'.scope.trans h.scope, h'.globals.trans h.globals,
    h'.hops.trans h.hops, h'.flushFails.trans h.flushFails⟩

end Machine.Later

theorem Machine.Later.define (m : Machine) (frame : FrameId) (name : String) (v : Value) :
    m.Later { m with store := m.store.define frame name v } :=
  ⟨.define _ _ _ _, rfl, rfl, rfl, rfl⟩

theorem Machine.Later.print (m : Machine) (text : String) :
    m.Later { m with sink := (m.sink.write text).2 } :=
  ⟨.refl _, rfl, rfl, rfl, m.sink.flushFails_write text⟩

/-- A machine in which a frame has just been opened. -/
def Machine.opened (m : Machine) (bindings : Bindings) (enclosing : FrameId) : Machine :=
  { m with
    store := m.store.allocate bindings (some enclosing)
    scope := m.store.nextFrame }

theorem Run.inNewFrame_opened {α : Type} {action : Run α} {m m' : Machine} {bindings : Bindings}
    {enclosing : FrameId} {result : Except Fault α}
    (h : action (m.opened bindings enclosing) = (result, m')) :
    Run.inNewFrame bindings enclosing action m = (result, { m' with scope := m.scope }) := by
  rw [Machine.opened] at h
  simp only [Run.inNewFrame_apply, h]

/-- When what ran in a new frame is over, the frame that was current before is so again. -/
theorem Machine.Later.closed {m m' : Machine} {bindings : Bindings} {enclosing : FrameId}
    (h : (m.opened bindings enclosing).Later m') : m.Later { m' with scope := m.scope } :=
  ⟨(Store.Later.allocate m.store bindings (some enclosing)).trans h.store, rfl, h.globals, h.hops,
    h.flushFails⟩

end TreeWalk
