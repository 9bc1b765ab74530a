import TreeWalk.Proofs.Likeness.Machine
import TreeWalk.Proofs.Session.HopSoundness

/-! The states that sessions get into. Nothing in them speaks of a frame that does not exist, or of
an identity that is still to be drawn. -/

namespace TreeWalk

variable {ps : List Program} {c : Context}

/-- All that is found in code of a program belongs to the program. -/
theorem Program.HasBody.mem_ids {p : Program} {regions : List Region} {inFunction : Bool}
    {scopes : List Scope} {body : List Stmt} (h : p.HasBody regions inFunction scopes body)
    {id : NodeId} (hid : id ∈ Stmt.idsOfAll body) : id ∈ p.ids := by
  rw [← Stmt.ids_findingsOfAll inFunction scopes] at hid
  obtain ⟨r, hr, rfl⟩ := List.mem_map.mp hid
  obtain ⟨f, hf, hreference⟩ := List.mem_filterMap.mp hr
  cases f with
  | reference r' =>
    cases hreference
    exact (h.found _ hf).1
  | error d => cases hreference

theorem Machine.Sound.grounded {m : Machine} (h : m.Sound ps c) (hscope : m.scope = m.globals) :
    m.Grounded where
  nested := h.nested
  scope_lt := hscope ▸ h.globals_lt
  globals_lt := h.globals_lt
  outermost := h.outermost
  closures hc := by
    obtain ⟨p, -, regions, scopes, hr, -⟩ := h.values _ _ _ hc
    exact h.lt_nextFrame hr

namespace Session

/-- The session that some steps lead to. -/
def after (fuel : Nat) (sink : Sink) (steps : List Step) : Session :=
  ((initial sink).stepsUnder .resolved fuel steps).2

/-- A session between two steps. All its frames exist, and all its identities have been drawn. -/
structure WellFormed (s : Session) : Prop where
  machine : s.machine.Grounded
  scope : s.machine.scope = s.machine.globals
  hops : ∀ id, s.nextId ≤ id → s.machine.hops[id]? = none
  code : ∀ {f name g}, s.machine.store.get? f name = some (.closure g) →
    ∀ id ∈ Stmt.idsOfAll g.body, id < s.nextId

theorem Sound.wellFormed {s : Session} (h : s.Sound ps c) : s.WellFormed where
  machine := h.machine.grounded h.scope
  scope := h.scope
  hops := h.hops
  code hg id hid := by
    obtain ⟨p, hp, regions, scopes, -, hbody, -⟩ := h.machine.values _ _ _ hg
    exact h.drawn p hp id (hbody.mem_ids hid)

theorem sound_after (fuel : Nat) (sink : Sink) (steps : List Step) :
    ∃ ps c, (after fuel sink steps).Sound ps c := by
  obtain ⟨c, hkeeps⟩ := (initial_sound sink).steps fuel steps
  exact ⟨_, c, hkeeps.sound⟩

theorem wellFormed_after (fuel : Nat) (sink : Sink) (steps : List Step) :
    (after fuel sink steps).WellFormed := by
  obtain ⟨ps, c, hsound⟩ := sound_after fuel sink steps
  exact hsound.wellFormed

/-- One more step, with whatever fuel, leads to a sound session again. -/
theorem Sound.step {s : Session} (h : s.Sound ps c) (fuel : Nat) (first : Step) :
    ∃ ps' c', (s.step fuel first).2.Sound ps' c' := by
  obtain ⟨c', hkeeps⟩ := h.steps fuel [first]
  exact ⟨_, c', hkeeps.sound⟩

theorem step_run (fuel : Nat) (s : Session) (source : String) :
    s.step fuel (.run source) =
      (.ran (s.run fuel source).1
        ((s.run fuel source).2.printed.extract s.printed.size (s.run fuel source).2.printed.size)
        (s.run fuel source).2.localCount, (s.run fuel source).2) :=
  rfl

theorem steps_cons (fuel : Nat) (s : Session) (first : Step) (rest : List Step) :
    s.steps fuel (first :: rest) =
      (s.step fuel first).1 :: (s.step fuel first).2.steps fuel rest :=
  rfl

theorem steps_append (fuel : Nat) (s : Session) (first rest : List Step) :
    s.steps fuel (first ++ rest) =
      s.steps fuel first ++ (s.stepsUnder .resolved fuel first).2.steps fuel rest := by
  induction first generalizing s with
  | nil => rfl
  | cons step first ih =>
    rw [List.cons_append, steps_cons, ih, steps_cons]
    rfl

theorem length_steps (fuel : Nat) (s : Session) (steps : List Step) :
    (s.steps fuel steps).length = steps.length := by
  induction steps generalizing s with
  | nil => rfl
  | cons first rest ih => rw [steps_cons, List.length_cons, List.length_cons, ih]

/-- A run is rejected exactly for the reports on its text. -/
theorem run_eq_rejected_iff {s : Session} {fuel : Nat} {source : String} {ds : List Diagnostic} :
    (s.run fuel source).1 = .rejected ds ↔
      (Program.ofSource source s.nextId).errors = ds ∧ ds ≠ [] := by
  by_cases h : (Program.ofSource source s.nextId).errors = []
  · have haccepted : ∃ result, (s.run fuel source).1 = .ofResult result :=
      ⟨_, congrArg Prod.fst (runUnder_accepted rfl h rfl)⟩
    obtain ⟨result, hresult⟩ := haccepted
    rw [hresult, h]
    constructor
    · intro heq
      rcases result with (_ | _) | _ <;> cases heq
    · rintro ⟨rfl, hne⟩
      exact absurd rfl hne
  · have hrejected : (s.run fuel source).1 = .rejected (Program.ofSource source s.nextId).errors :=
      congrArg Prod.fst (runUnder_rejected rfl h)
    rw [hrejected]
    constructor
    · rintro ⟨⟩
      exact ⟨rfl, h⟩
    · rintro ⟨rfl, -⟩
      rfl

namespace WellFormed

variable {s : Session} {source : String}

theorem size_hops (hs : s.WellFormed) (h : (Program.ofSource source s.nextId).errors = []) :
    (s.machine.hops ∪ (Program.ofSource source s.nextId).resolution.hops).size =
      s.machine.hops.size + (Program.ofSource source s.nextId).resolution.hops.size := by
  refine Std.TreeMap.size_union_of_not_mem fun id hmem => ?_
  rw [← Std.TreeMap.contains_iff_mem, Std.TreeMap.contains_eq_isSome_getElem?] at hmem ⊢
  rcases Nat.lt_or_ge id s.nextId with hlt | hge
  · simp [Program.hops_of_lt h hlt]
  · simp [hs.hops id hge] at hmem

end WellFormed

end Session

end TreeWalk
