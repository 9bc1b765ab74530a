import TreeWalk.Proofs.Looping.Observation
import TreeWalk.Proofs.Resolution.Shift
import TreeWalk.Proofs.Session.Wrapping

/-! What holds of the machine whenever a statement of a program is executed, and what is seen of a
statement that is replaced at such a moment. -/

namespace TreeWalk

/-- A program with higher identities has those of its variables. -/
theorem Stmt.idsOfAll_shift (σ : Shift) (program : List Stmt) :
    idsOfAll (program.map σ.stmt) = (idsOfAll program).map σ.node := by
  have hids (p : List Stmt) : (resolve p).references.map Reference.id = idsOfAll p :=
    ids_findingsOfAll false [] p
  rw [← hids, ← hids, resolve_shift, List.map_map, List.map_map]
  rfl

theorem Stmt.le_of_mem_idsOfAll_shift {σ : Shift} {program : List Stmt} {i : NodeId}
    (hi : i ∈ idsOfAll (program.map σ.stmt)) : σ.ids ≤ i := by
  rw [idsOfAll_shift] at hi
  obtain ⟨j, -, rfl⟩ := List.mem_map.mp hi
  exact Nat.le_add_left σ.ids j

/-- The table of a program with higher identities says nothing of lower ones. -/
theorem hops_shift_of_lt {σ : Shift} {program : List Stmt} {i : NodeId} (hi : i < σ.ids) :
    (resolve (program.map σ.stmt)).hops[i]? = none :=
  resolve_hops_of_not_mem fun hmem => Nat.not_lt.mpr (Stmt.le_of_mem_idsOfAll_shift hmem) hi

/-- A machine in the course of a run of a program. The identities in use are those before `n`, and
the variables of the program are found where the resolver says. -/
structure Machine.Running (program : List Stmt) (n : NodeId) (m : Machine) : Prop where
  grounded : m.Grounded
  hops : ∀ i ∈ Stmt.idsOfAll program, m.hops[i]? = (resolve program).hops[i]?
  free : ∀ i, n ≤ i → m.hops[i]? = none
  code : ∀ {f name c}, m.store.get? f name = some (.closure c) → ∀ i ∈ Stmt.idsOfAll c.body, i < n

section Tables

variable {program : List Stmt} {n : NodeId} {m : Machine} {table : HopTable}

/-- Hop counts taken in for new identities are found under these. -/
theorem Machine.Running.hops_union_of_le (h : m.Running program n) {i : NodeId} (hi : n ≤ i) :
    (m.hops ∪ table)[i]? = table[i]? := by
  rw [Std.TreeMap.getElem?_union, h.free i hi, Option.or_none]

/-- Hop counts taken in for new identities do not touch the others. -/
theorem Machine.hops_union_of_none {i : NodeId} (hi : table[i]? = none) :
    (m.hops ∪ table)[i]? = m.hops[i]? := by
  rw [Std.TreeMap.getElem?_union, hi, Option.none_or]

end Tables

namespace Machine.Running

variable {program : List Stmt} {n : NodeId} {m : Machine}

/-- An action that is in step with itself keeps to the identities in use. -/
theorem of_lockstep (hm : m.Running program n) {sorts : Labelling Bool} {α : Type} {r : Run α}
    {q : Labelling Bool → Store → α → α → Prop}
    (h : Lockstep (.copied ⟨0, 0⟩ n [] m.hops) sorts m m r r q) : (r m).2.Running program n := by
  obtain ⟨hrun, hrun', -, hlater, halike, -, -⟩ := h
  next sorts₁ result result' m₁ m₁' =>
  obtain ⟨-, rfl⟩ := Prod.mk.inj (hrun.symm.trans hrun')
  rw [hrun]
  have hclosure {f : FrameId} {name : String} {c : Closure}
      (hc : m₁.store.get? f name = some (.closure c)) :
      c.frame < m₁.store.nextFrame ∧ ∀ i ∈ Stmt.idsOfAll c.body, i < n := by
    have hspelled : (Likeness.copied ⟨0, 0⟩ n [] m.hops).spelled (sorts₁ f) name name := rfl
    have hvalue := halike.values f hspelled
    rw [hc] at hvalue
    cases hvalue with
    | some hvalue =>
      cases hvalue with
      | closure hlt _ _ _ _ hregion =>
        refine ⟨hlt, fun i hi => ?_⟩
        obtain ⟨i', d, hnode⟩ := hregion.body.exists_node hi
        exact hnode.1
  refine ⟨⟨halike.nested, halike.scope_lt, halike.globals_lt, halike.outermost,
    fun hc => (hclosure hc).1⟩, fun i hi => ?_, fun i hi => ?_, fun hc => (hclosure hc).2⟩
  · rw [hlater.hops, hm.hops i hi]
  · rw [hlater.hops, hm.free i hi]

/-- The machine is alike to itself with other hop counts, as far as these have the old ones under
the identities in use, and once more under the new identities of copied code. -/
theorem alike_copied (hm : m.Running program n) {σ : Shift} {ids : List NodeId} {hops : HopTable}
    (hkept : ∀ i < n, hops[i]? = m.hops[i]?)
    (hcopied : ∀ i ∈ ids, hops[σ.node i]? = m.hops[i]?) :
    m.Alike (.copied σ n ids m.hops) (fun _ => false) { m with hops } := by
  refine hm.grounded.alike (fun _ => rfl) (fun {n n'} => Iff.rfl) ?_
    fun hc i hi => ⟨_, hm.code hc i hi, .inl rfl, rfl⟩
  rintro i i' d ⟨hlt, rfl | ⟨hmem, rfl⟩, hd⟩
  · exact ⟨hd, (hkept _ hlt).trans hd⟩
  · exact ⟨hd, (hcopied _ hmem).trans hd⟩

/-- The machine is in step with itself. -/
theorem alike_self (hm : m.Running program n) :
    m.Alike (.copied ⟨0, 0⟩ n [] m.hops) (fun _ => false) m :=
  hm.alike_copied (fun _ _ => rfl) fun _ hi => nomatch hi

theorem eval (hm : m.Running program n) (fuel : Nat) {e : Expr} (he : ∀ i ∈ e.ids, i < n) :
    (e.eval .resolved (runBody .resolved fuel) m).2.Running program n :=
  hm.of_lockstep (Expr.eval_lockstep Likeness.copied_faithful
    (runBody_lockstep Likeness.copied_faithful fuel)
    (Expr.alike_self (fun _ => rfl) (fun _ _ => rfl) fun i hi => ⟨_, he i hi, .inl rfl, rfl⟩)
    hm.alike_self Outlook.plain_fits)

theorem exec (hm : m.Running program n) (limit fuel : Nat) {s : Stmt} (hs : ∀ i ∈ s.ids, i < n) :
    (s.exec .resolved limit (runBody .resolved fuel) m).2.Running program n :=
  hm.of_lockstep (Stmt.exec_lockstep Likeness.copied_faithful
    (runBody_lockstep Likeness.copied_faithful fuel) limit
    (Stmt.alike_self (fun _ => rfl) (fun _ _ => rfl) fun i hi => ⟨_, hs i hi, .inl rfl, rfl⟩)
    hm.alike_self Outlook.plain_fits)

/-- In a frame just opened for a block or a call. -/
theorem opened (hm : m.Running program n) {bindings : Bindings} {enclosing : FrameId}
    (hlt : enclosing < m.store.nextFrame)
    (hbindings : ∀ {name c}, bindings.lookup name = some (.closure c) →
      c.frame < m.store.nextFrame ∧ ∀ i ∈ Stmt.idsOfAll c.body, i < n) :
    (m.opened bindings enclosing).Running program n := by
  have hrooted : m.Rooted :=
    ⟨hm.grounded.nested, hm.grounded.scope_lt, hm.grounded.globals_lt, hm.grounded.outermost⟩
  have hopened : (m.opened bindings enclosing).Rooted := hrooted.opened hlt
  have hle := (Store.Later.allocate m.store bindings (some enclosing)).le
  have hclosure {f : FrameId} {name : String} {c : Closure}
      (hc : (m.opened bindings enclosing).store.get? f name = some (.closure c)) :
      c.frame < m.store.nextFrame ∧ ∀ i ∈ Stmt.idsOfAll c.body, i < n := by
    simp only [Machine.opened, Store.get?_allocate] at hc
    split at hc
    · exact hbindings hc
    · exact ⟨hm.grounded.closures hc, hm.code hc⟩
  exact ⟨⟨hopened.nested, hopened.scope_lt, hopened.globals_lt, hopened.outermost,
    fun hc => Nat.lt_of_lt_of_le (hclosure hc).1 hle⟩, hm.hops, hm.free, fun hc => (hclosure hc).2⟩

end Machine.Running

/-- Whatever state a session is in between two steps, the machine is so when a program is about to
run. -/
theorem Session.WellFormed.running {session : Session} (h : session.WellFormed)
    {program : List Stmt} {n : NodeId}
    (hdrawn : Grammar.Drawn session.nextId (Stmt.idsOfAll program) n) :
    (session.machine.addHops (resolve program).hops).Running program n where
  grounded := ⟨h.machine.nested, h.machine.scope_lt, h.machine.globals_lt, h.machine.outermost,
    h.machine.closures⟩
  hops i hi := by
    have hbefore := h.hops i (hdrawn.within i hi).1
    rw [Machine.addHops, Std.TreeMap.getElem?_union, hbefore, Option.or_none]
  free i hi := by
    have hmem : i ∉ Stmt.idsOfAll program := fun hmem =>
      Nat.not_lt.mpr hi (hdrawn.within i hmem).2
    rw [Machine.addHops, Machine.hops_union_of_none (resolve_hops_of_not_mem hmem)]
    exact h.hops i (Nat.le_trans hdrawn.le hi)
  code hc i hi := Nat.lt_of_lt_of_le (h.code hc i hi) hdrawn.le

/-- Where the new hop counts are those of new identities only, an action and another one that goes
abreast with it look the same, with whatever statements after them. -/
theorem Machine.Running.sight_eq {program : List Stmt} {n : NodeId} {m : Machine}
    (hm : m.Running program n) {new new' : HopTable} (hnew : ∀ i < n, new[i]? = none)
    (hnew' : ∀ i < n, new'[i]? = none) (limit fuel : Nat) {r r' : Run Flow}
    (h : ∀ {m₁ m₁' : Machine},
      m₁.Padded (m.hops ∪ new) (m.hops ∪ new') id m₁' →
      Gaps.Sees id id m₁.store m₁'.store m₁.scope m₁'.scope →
        Abreast (m.hops ∪ new) (m.hops ∪ new') id m₁ m₁' r r'
          (Flow.Padded (m.hops ∪ new) (m.hops ∪ new')))
    {rest : List Stmt} (hrest : ∀ i ∈ Stmt.idsOfAll rest, i < n) :
    (r.followedBy limit (runBody .resolved fuel) rest).sight (m.addHops new) =
      (r'.followedBy limit (runBody .resolved fuel) rest).sight (m.addHops new') := by
  have hold {i : NodeId} (hi : i < n) : (m.hops ∪ new')[i]? = (m.hops ∪ new)[i]? := by
    rw [Machine.hops_union_of_none (hnew i hi), Machine.hops_union_of_none (hnew' i hi)]
  have hpadded : (m.addHops new).Padded (m.hops ∪ new) (m.hops ∪ new') id (m.addHops new') :=
    hm.grounded.padded fun hc i hi => hold (hm.code hc i hi)
  have hsees : Gaps.Sees id id m.store m.store m.scope m.scope := fun d => by
    rw [Option.map_id_fun, id, id]
  have hafter : Stmt.AllPadded ((m.hops ∪ new).Padded (m.hops ∪ new')) id rest rest := by
    refine Stmt.allPadded_self rest rfl fun i k hi => ?_
    rw [Gaps.iterate_enter_id, HopTable.Padded, Option.map_id_fun, id]
    exact hold (hrest i (Stmt.mem_idsOfAll_of_mem_depths hi))
  have hboth := (h hpadded hsees).followedBy (runBody_abreast fuel) limit hpadded hsees hafter
  exact hboth.sight rfl rfl

/-- A statement of the program looks the same under identities of its own. -/
theorem Machine.Running.sight_copy {program : List Stmt} {n : NodeId} {m : Machine}
    (hm : m.Running program n) (hids : ∀ i ∈ Stmt.idsOfAll program, i < n) (limit fuel : Nat)
    {s : Stmt} (hs : ∀ i ∈ s.ids, i ∈ Stmt.idsOfAll program) {rest : List Stmt}
    (hrest : ∀ i ∈ Stmt.idsOfAll rest, i < n) :
    ((s.exec .resolved limit (runBody .resolved fuel)).followedBy limit (runBody .resolved fuel)
        rest).sight m =
      ((((Shift.mk n 0).stmt s).exec .resolved limit (runBody .resolved fuel)).followedBy limit
        (runBody .resolved fuel) rest).sight
          (m.addHops (resolve (program.map (Shift.mk n 0).stmt)).hops) := by
  let σ : Shift := ⟨n, 0⟩
  -- A variable is found in the same frame under its old identity and under its new one.
  have halike : m.Alike (.copied σ n (Stmt.idsOfAll program) m.hops) (fun _ => false)
      (m.addHops (resolve (program.map σ.stmt)).hops) := by
    refine hm.alike_copied (fun i hi => Machine.hops_union_of_none (hops_shift_of_lt hi))
      fun i hi => ?_
    have hpast : n ≤ σ.node i := Nat.le_add_left n i
    rw [hm.hops_union_of_le hpast, (hops_shift σ program).1, hm.hops i hi]
  have hstatement : Stmt.Alike (.copied σ n (Stmt.idsOfAll program) m.hops) .plain s (σ.stmt s) :=
    Likeness.alike_copy rfl fun i hi => ⟨hids i (hs i hi), hs i hi⟩
  have hafter : Stmt.AllAlike (.copied σ n (Stmt.idsOfAll program) m.hops) .plain rest rest :=
    Likeness.allAlike_kept hrest
  have hlockstep := Stmt.execAll_lockstep Likeness.copied_faithful
    (runBody_lockstep Likeness.copied_faithful fuel) limit (.cons hstatement hafter) halike
    Outlook.plain_fits
  exact hlockstep.sight halike

end TreeWalk
