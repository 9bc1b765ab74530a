import TreeWalk.Proofs.Grammar.Numbering
import TreeWalk.Proofs.Session.Restoration
import TreeWalk.Proofs.Session.States

/-! No two nodes ever have the same identity, whatever was parsed before and with whatever reports.
So the table of hop counts only grows: a run adds what was found for its own variables, and all that
was there stays. -/

namespace TreeWalk

namespace Resolution

/-- References of different identities, none of them in a table, add to it all those that are not
to globals. -/
theorem size_foldl_record {refs : List Reference} {table : HopTable}
    (hnodup : (refs.map Reference.id).Nodup) (hfree : ∀ r ∈ refs, table[r.id]? = none) :
    (refs.foldl Reference.record table).size =
      table.size + refs.countP (·.hops.isSome) := by
  induction refs generalizing table with
  | nil => rfl
  | cons r refs ih =>
    rw [List.map_cons, List.nodup_cons] at hnodup
    have hfree' : ∀ r' ∈ refs, (r.record table)[r'.id]? = none := by
      intro r' hr'
      have hne : r.id ≠ r'.id := fun heq => hnodup.1 (heq ▸ List.mem_map_of_mem hr')
      rw [getElem?_record_of_ne hne]
      exact hfree r' (List.mem_cons_of_mem _ hr')
    rw [List.foldl_cons, ih hnodup.2 hfree', List.countP_cons]
    have hsize : (r.record table).size = table.size + if r.hops.isSome then 1 else 0 := by
      have hr := hfree r List.mem_cons_self
      unfold Reference.record
      cases r.hops with
      | none => rfl
      | some d =>
        have hnot : r.id ∉ table := by
          rw [← Std.TreeMap.contains_iff_mem, Std.TreeMap.contains_eq_isSome_getElem?, hr]
          simp
        simp [Std.TreeMap.size_insert, hnot]
    omega

end Resolution

/-- The table of a program holds one entry for every reference that is not to a global. -/
theorem size_resolve_hops {program : List Stmt} (hnodup : (Stmt.idsOfAll program).Nodup) :
    (resolve program).hops.size = (resolve program).references.countP (·.hops.isSome) := by
  have hids : ((resolve program).references.map Reference.id).Nodup := by
    rwa [← Stmt.ids_findingsOfAll false [] program] at hnodup
  have hfree : ∀ r ∈ (resolve program).references, (∅ : HopTable)[r.id]? = none :=
    fun r _ => by simp
  have hsize := Resolution.size_foldl_record hids hfree
  simpa [Resolution.hops] using hsize

namespace Session

variable {s : Session} {source : String}

/-- The states that a session gets into, step by step, while other parsers draw identities in
between. -/
inductive Reached : Session → Prop where
  | initial (sink : Sink) (n : NodeId) : Reached ⟨Machine.initial sink, n⟩
  | step {s : Session} (fuel : Nat) (first : Step) : Reached s → Reached (s.step fuel first).2
  | others {s : Session} (k : Nat) : Reached s → Reached { s with nextId := s.nextId + k }

theorem Reached.run (h : s.Reached) (fuel : Nat) (source : String) :
    (s.run fuel source).2.Reached :=
  h.step fuel (.run source)

/-- However an accepted text runs, it leaves its hop counts with those there were. -/
theorem run_hops (fuel : Nat) (h : (Program.ofSource source s.nextId).errors = []) :
    (s.run fuel source).2.machine.hops =
        s.machine.hops ∪ (Program.ofSource source s.nextId).resolution.hops ∧
      (s.run fuel source).2.nextId = (Program.ofSource source s.nextId).nextId := by
  obtain ⟨result, m, hrun⟩ : ∃ result m, Run.interpret .resolved fuel
      (Program.ofSource source s.nextId).statements
        (s.machine.addHops (Program.ofSource source s.nextId).resolution.hops) = (result, m) :=
    ⟨_, _, rfl⟩
  have hkeeps := (Run.interpret_stays fuel
    (s.machine.addHops (Program.ofSource source s.nextId).resolution.hops).within_everywhere
    (Program.ofSource source s.nextId).statements).keeps
  rw [hrun] at hkeeps
  rw [run, runUnder_accepted rfl h hrun]
  exact ⟨hkeeps.later.hops, rfl⟩

/-- The table never speaks of an identity that is still to be drawn. -/
theorem Reached.hops_eq_none (h : s.Reached) {id : NodeId} (hid : s.nextId ≤ id) :
    s.machine.hops[id]? = none := by
  induction h generalizing id with
  | initial sink n => exact Std.TreeMap.getElem?_emptyc
  | others k _ ih => exact ih (Nat.le_trans (Nat.le_add_right _ k) hid)
  | @step s fuel first _ ih =>
    cases first with
    | defineHost name arity body => exact ih hid
    | run source =>
      rw [step_run] at hid ⊢
      dsimp only at hid ⊢
      by_cases herrors : (Program.ofSource source s.nextId).errors = []
      · obtain ⟨hhops, hnextId⟩ := run_hops fuel herrors
        rw [hnextId] at hid
        have hdrawn := Program.drawn herrors
        have hnot : id ∉ (Program.ofSource source s.nextId).ids := fun hmem =>
          Nat.not_lt.mpr hid (hdrawn.within id hmem).2
        rw [hhops, Std.TreeMap.getElem?_union, Program.hops_eq_none hnot, Option.none_or]
        exact ih (Nat.le_trans hdrawn.le hid)
      · rw [Session.run, runUnder_rejected rfl herrors] at hid ⊢
        exact ih (Nat.le_trans (Program.le_nextId source s.nextId) hid)

end Session

/-- All variables in all trees that the parser returns, whatever it is asked for in turn, have
identities that differ from one another. So in any state of a session, a text without errors adds to
the table only entries for identities that the table does not have, keeps all other entries, and
adds as many as there are variables in the text that are found in a local scope. -/
theorem identities_distinct :
    (∀ n requests, ((Request.serveAll n requests).1.flatMap Returned.ids).Nodup) ∧
    ∀ (s : Session) (fuel : Nat) (source : String) (p : Program), s.Reached →
      Program.ofSource source s.nextId = p → p.errors = [] →
        p.resolution.references.map Reference.id = Stmt.idsOfAll p.statements ∧
        (∀ r ∈ p.resolution.references, p.resolution.hops[r.id]? = r.hops) ∧
        (∀ id ∈ p.resolution.hops, id ∉ s.machine.hops) ∧
        (∀ id : NodeId, (s.run fuel source).2.machine.hops[id]? =
          s.machine.hops[id]?.or p.resolution.hops[id]?) ∧
        (s.run fuel source).2.localCount =
          s.localCount + p.resolution.references.countP (·.hops.isSome) := by
  refine ⟨fun n requests => (Request.serveAll_drawn n requests).nodup, ?_⟩
  rintro s fuel source p hs rfl herrors
  have hdrawn := Program.drawn herrors
  obtain ⟨hhops, -⟩ := s.run_hops fuel herrors
  have hdisjoint : ∀ id ∈ (Program.ofSource source s.nextId).resolution.hops,
      id ∉ s.machine.hops := by
    intro id hmem hmem'
    rw [← Std.TreeMap.contains_iff_mem, Std.TreeMap.contains_eq_isSome_getElem?] at hmem hmem'
    rcases Nat.lt_or_ge id s.nextId with hlt | hge
    · simp [Program.hops_of_lt herrors hlt] at hmem
    · simp [hs.hops_eq_none hge] at hmem'
  refine ⟨Stmt.ids_findingsOfAll false [] _, fun r hr => ?_, hdisjoint, fun id => ?_, ?_⟩
  · obtain ⟨f, hf, hreference⟩ := List.mem_filterMap.mp hr
    cases f with
    | reference r' =>
      cases hreference
      exact resolve_hops hdrawn.nodup hf
    | error d => cases hreference
  · rw [hhops, Std.TreeMap.getElem?_union]
    rcases Nat.lt_or_ge id s.nextId with hlt | hge
    · rw [Program.hops_of_lt herrors hlt, Option.none_or, Option.or_none]
    · rw [hs.hops_eq_none hge, Option.or_none, Option.none_or]
  · have hsize := Std.TreeMap.size_union_of_not_mem fun id hmem hmem' =>
      hdisjoint id hmem' hmem
    rw [Session.localCount, hhops, hsize, Session.localCount]
    exact congrArg _ (size_resolve_hops hdrawn.nodup)

namespace Session

/-- The same text is run twice in a session; what the first run recorded stays. -/
theorem identities_distinct_localReads :
    ∃ s : Session, s.Reached ∧ s.localCount = 1 ∧ s.machine.hops[0]? = some 0 ∧
      (Program.ofSource localRead s.nextId).errors = [] ∧
      (s.run 1 localRead).2.localCount = 2 ∧
      (s.run 1 localRead).2.machine.hops[0]? = some 0 := by
  have hprogram (n : NodeId) : Program.ofSource localRead n =
      { statements := [.block [.declare localName none, .expression (.var n localName)]]
        lexicalErrors := []
        syntacticErrors := []
        resolution := ⟨[⟨.read, n, localName, some 0⟩], []⟩
        nextId := n + 1 } := by
    rw [Program.ofSource, localRead_tokens]
    rfl
  have hfirst : (Session.initial .unlimited).Reached := .initial _ 0
  obtain ⟨-, -, -, hhops, hcount⟩ :=
    identities_distinct.2 _ 1 localRead _ hfirst (hprogram _) rfl
  have hsecond : ((Session.initial .unlimited).run 1 localRead).2.Reached :=
    hfirst.run 1 localRead
  obtain ⟨-, -, -, hhops', hcount'⟩ :=
    identities_distinct.2 _ 1 localRead _ hsecond (hprogram _) rfl
  have hzero : ((Session.initial .unlimited).run 1 localRead).2.machine.hops[0]? = some 0 := by
    rw [hhops]
    rfl
  refine ⟨_, hsecond, hcount, hzero, ?_, ?_, ?_⟩
  · rw [hprogram]
    rfl
  · rw [hcount', hcount]
    rfl
  · rw [hhops', hzero]
    rfl

end Session

end TreeWalk
