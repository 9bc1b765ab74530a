import TreeWalk.Proofs.Grammar.Bracing
import TreeWalk.Proofs.Padding.Execution
import TreeWalk.Proofs.Session.States

/-! A block of its own around a statement that is no declaration is not observed: the program has
no errors with it if it has none without it, and it runs in the same way. -/

namespace TreeWalk

/-- The hop counts of the variables in `s` that lead out of `s` are greater by one in the second
table. All the others are the same. -/
def HopTable.GrownIn (s : Stmt) (table table' : HopTable) : Prop :=
  (∀ i, i ∉ s.ids → table'[i]? = table[i]?) ∧
    ∀ i k, (i, k) ∈ s.depths → table'[i]? = table[i]?.map fun d => if d < k then d else d + 1

theorem Stmt.AllPadded.grownIn {s : Stmt} {program program' : List Stmt}
    (h : Stmt.AllPadded (fun g i => s.wrapping g i ∧
      (resolve program).hops.Padded (resolve program').hops g i) id program program')
    (hin : ∀ i ∈ s.ids, i ∈ Stmt.idsOfAll program) :
    (resolve program).hops.GrownIn s (resolve program').hops := by
  refine ⟨fun i hi => ?_, fun i k hk => ?_⟩
  · by_cases hmem : i ∈ Stmt.idsOfAll program
    · obtain ⟨g, hwrapping, hhops⟩ := h.exists_gaps hmem
      rw [hhops, hwrapping.1 hi, Option.map_id_fun, id]
    · rw [resolve_hops_of_not_mem hmem, resolve_hops_of_not_mem (h.ids_eq ▸ hmem)]
  · obtain ⟨g, hwrapping, hhops⟩ := h.exists_gaps (hin i (Stmt.mem_ids_of_mem_depths hk))
    rw [hhops, hwrapping.2 k hk]
    exact congrArg (Option.map · _) (funext (Gaps.iterate_enter_under_id k))

section Machine

variable {m : Machine} {table table' : HopTable}

/-- A machine and itself, with hop counts of either program taken in. -/
theorem Machine.Grounded.padded (h : m.Grounded)
    (hcode : ∀ {f name c}, m.store.get? f name = some (.closure c) →
      ∀ i ∈ Stmt.idsOfAll c.body, table'[i]? = table[i]?) :
    ({ m with hops := table } : Machine).Padded table table' id { m with hops := table' } := by
  have hvalue {f : FrameId} {name : String} {v : Value} (hv : m.store.get? f name = some v) :
      Value.Padded table table' id m.store m.store v v := by
    cases v with
    | literal l => exact .literal
    | host f => exact .host
    | closure c =>
      refine .closure (g := id) (h.closures hv) (h.closures hv) (fun d => ?_) ?_
      · rw [Option.map_id_fun, id, id]
      · rw [Gaps.enter_id]
        refine Stmt.allPadded_self c.body rfl fun i k hi => ?_
        rw [Gaps.iterate_enter_id, HopTable.Padded, Option.map_id_fun, id]
        exact hcode hv i (Stmt.mem_idsOfAll_of_mem_depths hi)
  have hrooted (hops : HopTable) : ({ m with hops } : Machine).Rooted :=
    ⟨h.nested, h.scope_lt, h.globals_lt, h.outermost⟩
  refine ⟨hrooted table, hrooted table', rfl, rfl, rfl, rfl, rfl, fun _ hf => hf,
    fun _ _ _ _ heq => heq, fun f _ name => ?_⟩
  rw [id]
  cases hv : m.store.get? f name with
  | none => exact .none
  | some v => exact .some (hvalue hv)

end Machine

namespace Session

/-- A program and one with further blocks run in the same way, because what the machine knows of
other programs does not touch the identities of these. -/
theorem WellFormed.interpret_padded {session : Session} (hwell : session.WellFormed)
    {program program' : List Stmt} {n' : NodeId}
    (hdrawn : Grammar.Drawn session.nextId (Stmt.idsOfAll program) n')
    (h : Stmt.AllPadded ((resolve program).hops.Padded (resolve program').hops) id program program')
    (fuel : Nat) : ∃ result m m',
      Run.interpret .resolved fuel program
        (session.machine.addHops (resolve program).hops) = (result, m) ∧
      Run.interpret .resolved fuel program'
        (session.machine.addHops (resolve program').hops) = (result, m') ∧
      m.sink = m'.sink := by
  have hown {table : HopTable} {i : NodeId} (hi : i ∈ Stmt.idsOfAll program) :
      (session.machine.hops ∪ table)[i]? = table[i]? := by
    rw [Std.TreeMap.getElem?_union, hwell.hops i (hdrawn.within i hi).1, Option.or_none]
  have hother {p : List Stmt} (hp : Stmt.idsOfAll p = Stmt.idsOfAll program) {i : NodeId}
      (hi : i < session.nextId) :
      (session.machine.hops ∪ (resolve p).hops)[i]? = session.machine.hops[i]? := by
    have hmem : i ∉ Stmt.idsOfAll p := fun hmem =>
      Nat.not_lt.mpr (hdrawn.within i (hp ▸ hmem)).1 hi
    rw [Std.TreeMap.getElem?_union, resolve_hops_of_not_mem hmem, Option.none_or]
  have hprogram : Stmt.AllPadded
      (HopTable.Padded (session.machine.hops ∪ (resolve program).hops)
        (session.machine.hops ∪ (resolve program').hops)) id program program' := by
    refine h.mono fun g i hi hhops => ?_
    rw [HopTable.Padded, hown hi, hown hi]
    exact hhops
  have hmachine : (session.machine.addHops (resolve program).hops).Padded
      (session.machine.hops ∪ (resolve program).hops)
      (session.machine.hops ∪ (resolve program').hops) id
      (session.machine.addHops (resolve program').hops) := by
    refine hwell.machine.padded fun hc i hi => ?_
    rw [hother h.ids_eq (hwell.code hc i hi), hother rfl (hwell.code hc i hi)]
  have hsees : Gaps.Sees id id session.machine.store session.machine.store session.machine.scope
      session.machine.scope := fun d => by rw [Option.map_id_fun, id, id]
  obtain ⟨hrun, hrun', -, hend, hends⟩ := Run.interpret_abreast fuel hprogram hmachine hsees
  cases hends <;> exact ⟨_, _, _, hrun, hrun', hend.sink.symm⟩

/-- In any state that a session gets into, take a program without errors and put a block of its own
around one occurrence in it of a statement `s` that is no declaration. If its text has braces there,
it is parsed without errors as well, and it has no errors either way. Hop counts that lead out of
`s` grow by one, and whenever `s` is executed it is so in a frame of its own. Yet with whatever fuel
the two programs run, they print the same and end in the same way. -/
theorem wrap_invariant (fuel₀ : Nat) (sink : Sink) (steps : List Step) (tokens : List Token)
    {program program' : List Stmt} {n' : NodeId} {s : Stmt}
    (hparsed : parseProgram tokens (after fuel₀ sink steps).nextId = ⟨program, [], n'⟩)
    (hresolved : (resolve program).errors = []) (hs : s.isDeclaration = false)
    (hwrapped : Stmt.ReplacedIn s (.block [s]) program program') :
    (∀ ts ts' stop, (∀ t ∈ ts, t.isEnd = false) → (∀ t ∈ ts', t.isEnd = false) →
      stop.isEnd = true →
      Grammar.Declarations.Braced s (after fuel₀ sink steps).nextId ts ts' program program' n' →
        parseProgram (ts' ++ [stop]) (after fuel₀ sink steps).nextId = ⟨program', [], n'⟩) ∧
      (resolve program').errors = [] ∧
      (resolve program).hops.GrownIn s (resolve program').hops ∧
      (∀ limit run m, (Stmt.block [s]).exec .resolved limit run m =
        Run.inNewFrame [] m.scope (s.exec .resolved limit run) m) ∧
      ∀ fuel, ∃ result m m',
        Run.interpret .resolved fuel program
          ((after fuel₀ sink steps).machine.addHops (resolve program).hops) = (result, m) ∧
        Run.interpret .resolved fuel program'
          ((after fuel₀ sink steps).machine.addHops (resolve program').hops) = (result, m') ∧
        m.sink = m'.sink := by
  have hwell := wellFormed_after fuel₀ sink steps
  generalize after fuel₀ sink steps = session at *
  obtain ⟨ts, hderived⟩ : ∃ ts, Grammar.Declarations .nearest session.nextId ts program n' := by
    have hclean : (parseProgram tokens session.nextId).errors = [] := by rw [hparsed]
    have hderived := parseProgram_derived hclean
    rwa [hparsed] at hderived
  have hdrawn := hderived.drawn
  -- The resolver: what was found for a variable is found again, behind the gap if there is one.
  obtain ⟨herrors, hpadded⟩ := resolve_widened
    (Stmt.allPadded_replaced hs hwrapped hderived.regular hdrawn.nodup) hdrawn.nodup hresolved
  refine ⟨fun ts ts' stop hts hts' hstop hbraced => ?_, herrors,
    hpadded.grownIn fun i hi => hwrapped.mem_ids hi,
    fun limit run m => Stmt.exec_block_singleton limit run s m, fun fuel => ?_⟩
  · exact (Grammar.parseProgram_braced hts hts' hstop hbraced).2.1
  · exact hwell.interpret_padded hdrawn (hpadded.mono fun _ _ _ h => h.2) fuel

/-- A function that returns its parameter. -/
def returnedParameter : List Stmt :=
  [.function ⟨.identifier, "f", 1⟩ [⟨.identifier, "a", 1⟩]
    [.returnFrom ⟨.keyword .return_, "return", 1⟩ (some (.var 0 ⟨.identifier, "a", 1⟩))]]

def returnedParameterTokens : List Token :=
  let mark (p : Punctuator) : Token := ⟨.punctuator p, "", 1⟩
  [⟨.keyword .fun_, "fun", 1⟩, ⟨.identifier, "f", 1⟩, mark .leftParen, ⟨.identifier, "a", 1⟩,
    mark .rightParen, mark .leftBrace, ⟨.keyword .return_, "return", 1⟩, ⟨.identifier, "a", 1⟩,
    mark .semicolon, mark .rightBrace]

theorem wrap_invariant_returnedParameter :
    parseProgram returnedParameterTokens 0 = ⟨returnedParameter, [], 1⟩ ∧
      (resolve returnedParameter).errors = [] ∧
        (resolve returnedParameter).hops[(0 : NodeId)]? = some 0 ∧
          ∃ s program', s.isDeclaration = false ∧
            Stmt.ReplacedIn s (.block [s]) returnedParameter program' ∧
              (resolve program').errors = [] ∧ (resolve program').hops[(0 : NodeId)]? = some 1 := by
  have hparsed : parseProgram returnedParameterTokens 0 = ⟨returnedParameter, [], 1⟩ := rfl
  have hresolved : (resolve returnedParameter).errors = [] := rfl
  have hhops : (resolve returnedParameter).hops[(0 : NodeId)]? = some 0 := rfl
  obtain ⟨s, hs, hdeclares, hdepths⟩ : ∃ s, returnedParameter =
      [.function ⟨.identifier, "f", 1⟩ [⟨.identifier, "a", 1⟩] [s]] ∧ s.isDeclaration = false ∧
        s.depths = [(0, 0)] := ⟨_, rfl, rfl, rfl⟩
  have hwrapped : Stmt.ReplacedIn s (.block [s]) returnedParameter
      [.function ⟨.identifier, "f", 1⟩ [⟨.identifier, "a", 1⟩] [.block [s]]] := by
    rw [hs]
    exact .head (.function (.head .here))
  obtain ⟨-, herrors, hgrown, -⟩ :=
    wrap_invariant 0 .unlimited [] _ hparsed hresolved hdeclares hwrapped
  refine ⟨hparsed, hresolved, hhops, s, _, hdeclares, hwrapped, herrors, ?_⟩
  rw [hgrown.2 0 0 (hdepths ▸ List.mem_cons_self), hhops]
  rfl

end Session

end TreeWalk
