import TreeWalk.Proofs.Machine.HopSoundness
import TreeWalk.Proofs.Machine.Territory
import TreeWalk.Proofs.Resolution.Capture

/-! Walking outward by name from the current frame leads where the hop counts lead, as long as no
frame in between binds the name. In the call that is running, the frames bind just the names that
the resolver's scopes have. Further out, where a function was declared, they may bind what was
declared after it, and there it takes a condition on the program. -/

namespace TreeWalk

section Frames

/-- The first `n` frames from the given one outward bind only names that the scopes in their places
have. -/
def Noted (store : Store) (n : Nat) (scopes : List Scope) (frame : FrameId) : Prop :=
  ∀ k < n, ∀ scope ∈ scopes[k]?, ∀ f ∈ store.ancestor? frame k, ∀ name,
    store.binds name f = true → (scope.lookup name).isSome = true

variable {m m' : Machine} {n : Nat} {scopes scopes' : List Scope}

/-- Scopes with all the names of others, and with some further names in the innermost one. -/
def Scope.Adds (names : List String) (scopes scopes' : List Scope) : Prop :=
  ∀ k, ∀ scope' ∈ scopes'[k]?, ∃ scope ∈ scopes[k]?,
    (∀ name, (scope.lookup name).isSome = true → (scope'.lookup name).isSome = true) ∧
      (k = 0 → ∀ name ∈ names, (scope'.lookup name).isSome = true)

theorem Scope.adds_self (scopes : List Scope) : Scope.Adds [] scopes scopes :=
  fun _ scope hscope => ⟨scope, hscope, fun _ h => h, fun _ _ h => nomatch h⟩

theorem Scope.adds_note (name : Token) (ready : Bool) (scopes : List Scope) :
    Scope.Adds [name.lexeme] scopes (Scope.note name ready scopes) := by
  cases scopes with
  | nil => exact fun k scope' h => by cases h
  | cons scope scopes =>
    intro k scope' hscope'
    cases k with
    | zero =>
      cases hscope'
      refine ⟨scope, rfl, fun other hother => ?_, fun _ other hother => ?_⟩
      · rw [List.lookup_cons]
        split
        · rfl
        · exact hother
      · rw [List.mem_singleton.mp hother, List.lookup_cons_self]
        rfl
    | succ k => exact ⟨scope', hscope', fun _ h => h, fun h => by cases h⟩

theorem Scope.Adds.trans {names : List String} {scopes'' : List Scope}
    (h : Scope.Adds names scopes scopes') (h' : Scope.Adds names scopes' scopes'') :
    Scope.Adds names scopes scopes'' := by
  intro k scope'' hscope''
  obtain ⟨scope', hscope', hmore', hnew⟩ := h' k scope'' hscope''
  obtain ⟨scope, hscope, hmore, -⟩ := h k scope' hscope'
  exact ⟨scope, hscope, fun name hname => hmore' name (hmore name hname), hnew⟩

theorem Stmt.declaredNames_eq_nil {s : Stmt} (hd : s.isDeclaration = false) (hr : s.Regular) :
    s.declaredNames = [] := by
  match s with
  | expression _ | print _ | block _ | returnFrom _ _ => rfl
  | declare _ _ | function _ _ _ => cases hd
  | ifThen _ branch | whileLoop _ branch => exact branch.declaredNames_eq_nil hr.1 hr.2
  | ifElse _ thenBranch elseBranch =>
    rw [declaredNames, thenBranch.declaredNames_eq_nil hr.1.1 hr.1.2,
      elseBranch.declaredNames_eq_nil hr.2.1 hr.2.2, List.append_nil]

theorem Stmt.adds_findings {s : Stmt} (hr : s.Regular) (inFunction : Bool)
    (scopes : List Scope) :
    Scope.Adds s.declaredNames scopes (s.findings inFunction scopes).1 := by
  cases hd : s.isDeclaration with
  | false =>
    rw [Stmt.scopes_findings hd hr, Stmt.declaredNames_eq_nil hd hr]
    exact Scope.adds_self scopes
  | true =>
    cases s with
    | declare name _ => exact (Scope.adds_note name false scopes).trans (Scope.adds_note name true _)
    | function name _ _ => exact Scope.adds_note name true scopes
    | _ => cases hd

/-- What the machine does as it declares some names, the scopes follow by adding them. -/
theorem Noted.later (h : Noted m.store n scopes m.scope) {names : List String}
    (hn : m.store.Nested) (hlt : m.scope < m.store.nextFrame) (hkeeps : m.Keeps names m')
    (hadds : Scope.Adds names scopes scopes') : Noted m'.store n scopes' m'.scope := by
  intro k hk scope' hscope' f hf name hbinds
  obtain ⟨scope, hscope, hmore, hnew⟩ := hadds k scope' hscope'
  rw [hkeeps.later.scope, hkeeps.later.store.ancestor? hn hlt] at hf
  rcases hkeeps.bound f (hn.ancestor?_lt hlt hf) name hbinds with hbinds | ⟨rfl, hname⟩
  · exact hmore name (h k hk scope hscope f hf name hbinds)
  · -- Only the current frame has come to bind anything, and it is the first one in view.
    cases k with
    | zero => exact hnew rfl name hname
    | succ k => exact absurd (hn.ancestor?_succ_lt hf) (Nat.lt_irrefl _)

/-- A new frame binds only what it was opened with. -/
theorem Noted.opened {frame : FrameId} (h : Noted m.store n scopes frame)
    (hn : m.store.Nested) (hlt : frame < m.store.nextFrame) {bindings : Bindings} {scope : Scope}
    (hnew : ∀ name, (bindings.lookup name).isSome = true → (scope.lookup name).isSome = true) :
    Noted (m.opened bindings frame).store (n + 1) (scope :: scopes)
      (m.opened bindings frame).scope := by
  have hlater := Store.Later.allocate m.store bindings (some frame)
  intro k hk scope' hscope' f hf name hbinds
  change f ∈ (m.store.allocate bindings (some frame)).ancestor? m.store.nextFrame k at hf
  change (m.store.allocate bindings (some frame)).binds name f = true at hbinds
  -- The new frame comes first, and one step outward everything is as before.
  cases k with
  | zero =>
    cases hscope'
    cases hf
    rw [Store.binds, Store.get?_allocate_self] at hbinds
    exact hnew name hbinds
  | succ k =>
    rw [Store.ancestor?, Store.enclosing?_allocate_self, Option.bind_some,
      hlater.ancestor? hn hlt] at hf
    rw [Store.binds, Store.get?_allocate_of_lt (hn.ancestor?_lt hlt hf)] at hbinds
    exact h k (Nat.lt_of_succ_lt_succ hk) scope' hscope' f hf name hbinds

end Frames

/-- Code of a program is about to run in a machine that is sound. The frames in view realise the
place of the code, and those of the call that is running bind only what the resolver has seen. -/
structure Standing (p : Program) (c : Context) (m : Machine) (regions : List Region)
    (scopes : List Scope) : Prop where
  sound : m.Sound [p] c
  realises : Realises c m.store m.globals regions scopes m.scope
  near : ∃ n, p.InCall regions n ∧ Noted m.store n scopes m.scope

namespace Standing

variable {p : Program} {c c' : Context} {m m' : Machine} {regions : List Region}
  {scopes scopes' : List Scope}

theorem lt_nextFrame (h : Standing p c m regions scopes) : m.scope < m.store.nextFrame :=
  h.sound.lt_nextFrame h.realises

/-- The statements of a whole program stand in the globals. -/
theorem of_globals (hs : m.Sound [p] c) (hscope : m.scope = m.globals) :
    Standing p c m [] [] :=
  ⟨hs, hscope ▸ .globals, 0, .program, fun k hk => by cases hk⟩

/-- Names that the machine declares are added to the scopes. -/
theorem later (h : Standing p c m regions scopes) (hs : m'.Sound [p] c')
    (hr : Realises c' m'.store m'.globals regions scopes' m'.scope) {names : List String}
    (hkeeps : m.Keeps names m') (hadds : Scope.Adds names scopes scopes') :
    Standing p c' m' regions scopes' := by
  obtain ⟨n, hcall, hnoted⟩ := h.near
  exact ⟨hs, hr, n, hcall, hnoted.later h.sound.nested h.lt_nextFrame hkeeps hadds⟩

/-- A variable is about to be declared, and not ready. -/
theorem note (h : Standing p c m regions scopes) {name : Token}
    (hdeclares : ∀ r ∈ regions.head?, r.Declares name.lexeme) :
    Standing p c m regions (Scope.note name false scopes) :=
  h.later h.sound (h.realises.note_unready hdeclares) (.refl m) (Scope.adds_note name false scopes)

/-- A frame nearer than the one that a variable was resolved to does not bind the name of the
variable. -/
theorem not_binds (h : Standing p c m regions scopes) (hp : p.NamesSuffice) {e : Expr}
    (he : p.HasExpr regions scopes e) {id : NodeId} {name : Token}
    (hmention : e.mention? = some (id, name)) {k : Nat} {f : FrameId} {region : Region}
    (hf : m.store.ancestor? m.scope k = some f) (hregion : regions[k]? = some region)
    (hactivation : (c f).head? = some region)
    (hnearer : ∀ d, p.resolution.hops[id]? = some d → k < d) :
    m.store.binds name.lexeme f = false := by
  rw [← Bool.not_eq_true]
  intro hbinds
  obtain ⟨n, hcall, hnoted⟩ := h.near
  obtain ⟨d, hdk, hd⟩ : ∃ d ≤ k, p.resolution.hops[id]? = some d := by
    by_cases hk : k < n
    · -- The running call has declared the name, and so the resolver has seen it.
      have hlen : k < scopes.length := by
        rw [← h.realises.length_eq]
        exact (List.getElem?_eq_some_iff.mp hregion).1
      have hscope : scopes[k]? = some scopes[k] := List.getElem?_eq_getElem hlen
      have hseen := hnoted k hk scopes[k] hscope f hf name.lexeme hbinds
      rw [(he.recorded hmention).2]
      exact Scope.hops_le hscope hseen
    · -- The frame is one of those around the function, and its region declares the name.
      have hdeclares := h.sound.bounded f region hactivation name.lexeme hbinds
      exact hp.captures id name k (hcall.captures (he.sites e e.mem_parts_self) hmention
        (Nat.le_of_not_lt hk) hregion hdeclares)
  exact absurd (hnearer d hd) (Nat.not_lt_of_le hdk)

/-- The frames in view, outward to the globals, are activations of the regions, one by one. -/
theorem exists_frames (h : Standing p c m regions scopes) : ∃ frames : List FrameId,
    m.store.chain m.scope = frames ++ [m.globals] ∧ frames.length = regions.length ∧
      ∀ k (hk : k < frames.length), m.store.ancestor? m.scope k = some frames[k] ∧
        (c frames[k]).head? = regions[k]? := by
  obtain ⟨frames, hchain, hframes⟩ :=
    h.realises.chain h.sound.nested h.sound.globals_lt h.sound.outermost
  have hlen : frames.length = regions.length := by
    simpa using congrArg List.length hframes
  refine ⟨frames, hchain, hlen, fun k hk => ⟨?_, ?_⟩⟩
  · rw [← h.sound.nested.getElem?_chain h.lt_nextFrame, hchain, List.getElem?_append_left hk,
      List.getElem?_eq_getElem hk]
  · have hmap := congrArg (·[k]?) hframes
    simpa [hk, hlen ▸ hk] using hmap

/-- Walking outward by name ends where the hop count of a variable leads, if the name is bound there,
and among the globals for a variable that has none. -/
theorem holder_eq (h : Standing p c m regions scopes) (hp : p.NamesSuffice) {e : Expr}
    (he : p.HasExpr regions scopes e) {id : NodeId} {name : Token}
    (hmention : e.mention? = some (id, name))
    (hbound : ∀ d, p.resolution.hops[id]? = some d →
      ∃ f, m.store.ancestor? m.scope d = some f ∧ m.store.binds name.lexeme f = true) :
    m.store.holder? m.scope name.lexeme = m.target? id name.lexeme := by
  obtain ⟨frames, hchain, hlen, hframes⟩ := h.exists_frames
  -- No frame nearer than the one that the variable was resolved to stops the walk.
  have hnearer (k : Nat) (hk : k < frames.length)
      (hd : ∀ d, p.resolution.hops[id]? = some d → k < d) :
      m.store.binds name.lexeme frames[k] = false := by
    have hregion : regions[k]? = some regions[k] := List.getElem?_eq_getElem (hlen ▸ hk)
    obtain ⟨hancestor, hactivation⟩ := hframes k hk
    exact h.not_binds hp he hmention hancestor hregion (hactivation.trans hregion) hd
  have hid := h.sound.hops p (List.mem_singleton_self p) id (he.recorded hmention).1
  have hwalk : m.store.holder? m.scope name.lexeme =
      (frames ++ [m.globals]).find? (m.store.binds name.lexeme) := by
    rw [Store.holder?, hchain]
  cases hd : p.resolution.hops[id]? with
  | none =>
    have hnone : frames.find? (m.store.binds name.lexeme) = none := by
      refine List.find?_eq_none.mpr fun f hf => ?_
      obtain ⟨k, hk, rfl⟩ := List.getElem_of_mem hf
      have hfree := hnearer k hk fun d hd' => by
        rw [hd] at hd'
        cases hd'
      rw [hfree]
      exact Bool.false_ne_true
    calc m.store.holder? m.scope name.lexeme
        = (frames ++ [m.globals]).find? (m.store.binds name.lexeme) := hwalk
      _ = [m.globals].find? (m.store.binds name.lexeme) := by
        rw [List.find?_append, hnone, Option.none_or]
      _ = m.store.holder? m.globals name.lexeme := by
        rw [Store.holder?, Store.chain_of_outermost h.sound.globals_lt h.sound.outermost]
      _ = m.target? id name.lexeme := by
        rw [Machine.target?, hid, hd]
  | some d =>
    obtain ⟨f, hf, hbinds⟩ := hbound d hd
    have hd' : d < frames.length := by
      rw [hlen, h.realises.length_eq]
      exact Scope.hops_lt ((he.recorded hmention).2.symm.trans hd)
    obtain rfl : frames[d] = f := Option.some.inj ((hframes d hd').1.symm.trans hf)
    have hfound : frames.find? (m.store.binds name.lexeme) = some frames[d] := by
      refine List.find?_eq_some_iff_getElem.mpr ⟨hbinds, d, hd', rfl, fun k hk => ?_⟩
      rw [hnearer k (Nat.lt_trans hk hd') fun d' hd'' => ?_]
      · rfl
      · rw [hd] at hd''
        cases hd''
        exact hk
    calc m.store.holder? m.scope name.lexeme
        = (frames ++ [m.globals]).find? (m.store.binds name.lexeme) := hwalk
      _ = some frames[d] := by
        rw [List.find?_append, hfound, Option.some_or]
      _ = m.store.ancestor? m.scope d := hf.symm
      _ = m.target? id name.lexeme := by
        rw [Machine.target?, hid, hd]

end Standing

/-- Reading by name where the walk ends at the right frame. -/
theorem Policy.byName_read {m : Machine} {id : NodeId} {name : Token}
    (h : m.store.holder? m.scope name.lexeme = m.target? id name.lexeme) :
    Policy.byName.read id name m = Policy.resolved.read id name m := by
  rw [m.resolved_read, ← h]
  simp only [Policy.byName, Run.bind_apply, Run.get_apply]
  exact Run.ofExcept_apply _ m

theorem Policy.byName_write {m : Machine} {id : NodeId} {name : Token} (v : Value)
    (h : m.store.holder? m.scope name.lexeme = m.target? id name.lexeme) :
    Policy.byName.write id name v m = Policy.resolved.write id name v m := by
  rw [m.resolved_write, ← h]
  rfl

section Lookup

variable {p : Program} {c : Context} {m : Machine} {regions : List Region} {scopes : List Scope}
  {id : NodeId} {name : Token}

/-- A variable that is read is bound where its hop count leads, so the walk by name finds it there. -/
theorem Standing.read_same (h : Standing p c m regions scopes) (hp : p.NamesSuffice)
    (he : p.HasExpr regions scopes (.var id name)) :
    Policy.byName.read id name m = Policy.resolved.read id name m := by
  refine Policy.byName_read (h.holder_eq hp he rfl fun d hd => ?_)
  obtain ⟨p', hp', regions', frames, -, hchain, -, hvar⟩ :=
    he.holds (List.mem_singleton_self p) h.sound h.realises .refl
  obtain rfl := List.mem_singleton.mp hp'
  obtain ⟨f, -, value, hf, -, -, hvalue, -⟩ := (hvar id name rfl).2 d hd
  refine ⟨f, ?_, ?_⟩
  · have hlt := (List.getElem?_eq_some_iff.mp hf).1
    rw [← h.sound.nested.getElem?_chain h.lt_nextFrame, hchain, List.getElem?_append_left hlt, hf]
  · rw [Store.binds, hvalue]
    rfl

/-- A variable that is assigned to is bound as well, for it is not in its own initializer. -/
theorem Standing.write_same (h : Standing p c m regions scopes) (hp : p.NamesSuffice)
    {value : Expr} (he : p.HasExpr regions scopes (.assign id name value)) (v : Value) :
    Policy.byName.write id name v m = Policy.resolved.write id name v m := by
  refine Policy.byName_write v (h.holder_eq hp he rfl fun d hd => ?_)
  obtain ⟨p', hp', regions', e, hsite, -, hplace⟩ :=
    he.write_holds (List.mem_singleton_self p) h.sound h.realises v .refl
  obtain rfl := List.mem_singleton.mp hp'
  obtain ⟨f, region, hf, hregion, -, -, hbinds⟩ := hplace d hd
  refine ⟨f, hf, hbinds.resolve_right ?_⟩
  rintro ⟨rfl, hfirst⟩
  rw [← List.head?_eq_getElem?] at hregion
  exact hp.not_initializes hsite hregion hfirst

end Lookup

end TreeWalk
