import TreeWalk.Proofs.Machine.Territory

/-! What a call can touch: frames that can be reached from the function's own frame, from the globals
and from functions among the arguments, and frames that are opened during the call. -/

namespace TreeWalk

/-- Frames that can be reached from some frames, going outward and into the functions that frames
bind names to. -/
inductive Store.Reaches (store : Store) (roots : FrameId → Prop) : FrameId → Prop where
  | root {f} : roots f → Store.Reaches store roots f
  | outward {f g} : Store.Reaches store roots f → store.enclosing? f = some g →
      Store.Reaches store roots g
  | closure {f name c} : Store.Reaches store roots f → store.get? f name = some (.closure c) →
      Store.Reaches store roots c.frame

/-- The frames that a call has to start with: the one that the function was declared in, the globals,
and those of functions among the arguments. -/
def Machine.CallRoots (m : Machine) (f : Closure) (arguments : List Value) (g : FrameId) : Prop :=
  g = f.frame ∨ g = m.globals ∨ ∃ c, .closure c ∈ arguments ∧ g = c.frame

/-- All that can be reached is a territory. -/
theorem Store.within_reach (store : Store) (roots : FrameId → Prop) :
    store.Within ⟨store, store.Reaches roots⟩ := by
  -- No frame has been opened since.
  have hreaches {f : FrameId} (h : Territory.Has ⟨store, store.Reaches roots⟩ store f) :
      store.Reaches roots f := by
    rcases h with h | ⟨hge, hlt⟩
    · exact h
    · exact absurd hlt (Nat.not_lt_of_le hge)
  refine ⟨Nat.le_refl _, fun f g hf hg => ?_, fun f name v hf hv => ?_, fun _ _ _ => rfl⟩
  · exact Or.inl (.outward (hreaches hf) hg)
  · rintro c rfl
    exact Or.inl (.closure (hreaches hf) hv)

/-- A call with as many arguments as there are parameters runs the body in a frame of its own. -/
theorem Value.call_closure {run : Region → Run Flow} {paren : Token} {arguments : List Value}
    {f : Closure} (hlen : arguments.length = f.params.length) (m : Machine) :
    (Value.closure f).call run paren arguments m =
      let ended := run ⟨f.params, f.body⟩ (m.opened (.ofArguments f.params arguments) f.frame)
      (ended.1.map Flow.result, { ended.2 with scope := m.scope }) := by
  simp only [Value.call, hlen, ne_eq, not_true_eq_false, ↓reduceIte, Run.bind_apply,
    Run.inNewFrame_apply]
  rw [← Machine.opened]
  cases run ⟨f.params, f.body⟩ (m.opened (.ofArguments f.params arguments) f.frame) with
  | mk result m' => cases result <;> rfl

/-- However a call of a declared function ends, every frame there was that the call could not reach
is as it was before. A function that the call returns belongs to a frame that the call could reach, or
to one that was opened during the call. -/
theorem call_stays_reachable (fuel : Nat) (m m' : Machine) (f : Closure) (paren : Token)
    (arguments : List Value) (result : Except Fault Value)
    (hcall : (Value.closure f).call (runBody .resolved fuel) paren arguments m = (result, m')) :
    (∀ g < m.store.nextFrame, ¬ m.store.Reaches (m.CallRoots f arguments) g →
      m'.store.frames[g]? = m.store.frames[g]?) ∧
    ∀ c, result = .ok (.closure c) → m.store.Reaches (m.CallRoots f arguments) c.frame ∨
      m.store.nextFrame ≤ c.frame ∧ c.frame < m'.store.nextFrame := by
  let t : Territory := ⟨m.store, m.store.Reaches (m.CallRoots f arguments)⟩
  have hroot {g : FrameId} (hg : m.CallRoots f arguments g) : t.Has m.store g :=
    Or.inl (.root hg)
  have hstore : m.store.Within t := Store.within_reach m.store (m.CallRoots f arguments)
  have harguments : ∀ v ∈ arguments, t.Holds m.store v := by
    rintro v hv c rfl
    exact hroot (Or.inr (Or.inr ⟨c, hv, rfl⟩))
  -- The caller's frame need not be in the territory, but the frame that is opened is.
  have hopened : (m.opened (.ofArguments f.params arguments) f.frame).Within t :=
    .opened hstore (hroot (Or.inr (Or.inl rfl))) (hroot (Or.inl rfl)) fun _ _ =>
      Territory.holds_ofArguments harguments
  have hbody := runBody_stays fuel _ ⟨f.params, f.body⟩ hopened
  by_cases hlen : arguments.length = f.params.length
  · rw [Value.call_closure hlen] at hcall
    obtain ⟨rfl, rfl⟩ := hcall
    refine ⟨fun g hg hunreached => hbody.within.store.outside g hg hunreached, fun c hc => ?_⟩
    -- What is returned is the result of the flow that the body ends with.
    cases hflow : (runBody .resolved fuel ⟨f.params, f.body⟩
        (m.opened (.ofArguments f.params arguments) f.frame)).1 with
    | error fault =>
      rw [hflow] at hc
      cases hc
    | ok flow =>
      rw [hflow] at hc
      have hresult : flow.result = .closure c := by simpa [Except.map] using hc
      exact hbody.post flow hflow c hresult
  · have hfails : (Value.closure f).call (runBody .resolved fuel) paren arguments m =
        (.error (.failure (.runtime paren (.argumentCount f.params.length arguments.length))), m) := by
      simp only [Value.call, ne_eq, hlen, not_false_eq_true, ↓reduceIte]
      rfl
    rw [hfails] at hcall
    obtain ⟨rfl, rfl⟩ := hcall
    exact ⟨fun _ _ _ => rfl, fun c hc => by cases hc⟩

/-- A function that changes a variable of the frame it was declared in. -/
def bump : Closure :=
  let n : Token := ⟨.identifier, "n", 1⟩
  ⟨0, ⟨.identifier, "bump", 1⟩, [], [.expression (.assign 0 n (.literal (.bool true)))], 1⟩

/-- Two frames that bind the same name, both enclosed by the globals. The function belongs to the first
one, and the second one is current. -/
def twoCounters : Machine where
  store := ((Store.empty.allocate [] none).allocate [("n", .nil)] (some 0)).allocate
    [("n", .nil)] (some 0)
  scope := 2
  globals := 0
  hops := (∅ : HopTable).insert 0 1
  sink := .unlimited
  nextIdentity := 1

theorem twoCounters_reached {g : FrameId}
    (h : twoCounters.store.Reaches (twoCounters.CallRoots bump []) g) : g = 0 ∨ g = 1 := by
  induction h with
  | root hroot =>
    rcases hroot with rfl | rfl | ⟨c, hc, -⟩
    · exact Or.inr rfl
    · exact Or.inl rfl
    · cases hc
  | outward _ he ih =>
    rcases ih with rfl | rfl
    · cases he
    · cases he
      exact Or.inl rfl
  | @closure f name c _ hc ih =>
    -- Neither frame binds a name to a function.
    rcases ih with rfl | rfl
    · cases hc
    · have hlookup : List.lookup name [("n", Value.nil)] = some (.closure c) := hc
      rw [List.lookup_cons] at hlookup
      split at hlookup <;> cases hlookup

theorem call_stays_reachable_twoCounters : ∃ m',
    (Value.closure bump).call (runBody .resolved 1) bump.name [] twoCounters = (.ok .nil, m') ∧
      m'.store.get? 1 "n" = some (.literal (.bool true)) ∧
        ¬ twoCounters.store.Reaches (twoCounters.CallRoots bump []) 2 ∧
          m'.store.frames[2]? = twoCounters.store.frames[2]? := by
  obtain ⟨m', hcall⟩ : ∃ m', (Value.closure bump).call (runBody .resolved 1) bump.name []
      twoCounters = (.ok .nil, m') := ⟨_, rfl⟩
  have hunreached : ¬ twoCounters.store.Reaches (twoCounters.CallRoots bump []) 2 := fun h =>
    absurd (twoCounters_reached h) (by decide)
  obtain ⟨hkept, -⟩ := call_stays_reachable 1 twoCounters m' bump bump.name [] _ hcall
  refine ⟨m', hcall, ?_, hunreached, hkept 2 (by decide) hunreached⟩
  cases hcall
  rfl

end TreeWalk
