import TreeWalk.Proofs.Looping.Execution
import TreeWalk.Proofs.Looping.Running

/-! The tree of a for statement means what a loop with one scope for all its clauses means, whatever
runs before it, in it and after it. -/

namespace TreeWalk.ForLoop

variable {l : ForLoop} {program program' : List Stmt}

/-- The same loop in the same program, with higher identities throughout. -/
theorem replacedIn_shift (σ : Shift)
    (h : Stmt.ReplacedIn l.tree (.block l.clauses) program program') :
    Stmt.ReplacedIn (l.shift σ).tree (.block (l.shift σ).clauses) (program.map σ.stmt)
      (program'.map σ.stmt) := by
  have hmapped := h.mapAll σ.node σ.token
  have hblock : (Stmt.block l.clauses).map σ.node σ.token = .block (l.clauses.map σ.stmt) :=
    congrArg Stmt.block (Stmt.mapAll_eq_map ..)
  rw [Stmt.mapAll_eq_map, Stmt.mapAll_eq_map, hblock] at hmapped
  rw [l.tree_shift, l.clauses_shift]
  exact hmapped

/-- Between the tree and the loop stand two others: the tree under the identities of the loop, and
the same with a block around it in any case. -/
theorem sight_followedBy {k n : NodeId} (hdrawn : Grammar.Drawn k (Stmt.idsOfAll program) n)
    (hresolved : (resolve program).errors = [])
    (hloop : Stmt.ReplacedIn l.tree (.block l.clauses) program program') {m : Machine}
    (hm : m.Running program n) (limit fuel : Nat) {rest : List Stmt}
    (hrest : ∀ i ∈ Stmt.idsOfAll rest, i < n) :
    ((l.tree.exec .resolved limit (runBody .resolved fuel)).followedBy limit
        (runBody .resolved fuel) rest).sight m =
      (((l.shift ⟨n, 0⟩).exec limit (runBody .resolved fuel)).followedBy limit
        (runBody .resolved fuel) rest).sight
          (m.addHops (resolve (program'.map (Shift.mk n 0).stmt)).hops) := by
  let σ : Shift := ⟨n, 0⟩
  have hloop' := replacedIn_shift σ hloop
  have hnodup : (Stmt.idsOfAll (program.map σ.stmt)).Nodup := by
    rw [Stmt.idsOfAll_shift]
    exact hdrawn.nodup.map fun i j hij => Nat.add_right_cancel hij
  have hresolved' : (resolve (program.map σ.stmt)).errors = [] := by
    rw [resolve_shift, hresolved]
    rfl
  obtain ⟨table, hothers, htree, hframed⟩ := exists_framed hloop' hnodup hresolved'
  -- The new identities are past those in use, and the tables speak of no others.
  have hpast {i : NodeId} (hi : i ∈ Stmt.idsOfAll (program.map σ.stmt)) : n ≤ i :=
    Stmt.le_of_mem_idsOfAll_shift hi
  have hown {i : NodeId} (hi : i ∈ (l.shift σ).tree.ids) (t : HopTable) :
      (m.hops ∪ t)[i]? = t[i]? := hm.hops_union_of_le (hpast (hloop'.mem_ids hi))
  have htable (i : NodeId) (hi : i < n) : table[i]? = none :=
    hothers i fun hmem => Nat.not_lt.mpr (hpast (hloop'.mem_ids hmem)) hi
  have hshifted (p : List Stmt) : ∀ i < n, (resolve (p.map σ.stmt)).hops[i]? = none :=
    fun _ hi => hops_shift_of_lt (σ := σ) hi
  calc ((l.tree.exec .resolved limit (runBody .resolved fuel)).followedBy limit
          (runBody .resolved fuel) rest).sight m
      = (((l.shift σ).tree.exec .resolved limit (runBody .resolved fuel)).followedBy limit
          (runBody .resolved fuel) rest).sight
            (m.addHops (resolve (program.map σ.stmt)).hops) := by
        rw [l.tree_shift]
        exact hm.sight_copy (fun i hi => (hdrawn.within i hi).2) limit fuel
          (fun i hi => hloop.mem_ids hi) hrest
    _ = (((l.shift σ).framed.exec .resolved limit (runBody .resolved fuel)).followedBy limit
          (runBody .resolved fuel) rest).sight (m.addHops table) := by
        refine hm.sight_eq (hshifted program) htable limit fuel (fun h hsees => ?_) hrest
        refine Stmt.exec_abreast (runBody_abreast fuel) limit
          (htree.mono fun g i hi hi' => ?_) h hsees
        rw [HopTable.Padded, hown hi, hown hi]
        exact hi'
    _ = (((l.shift σ).exec limit (runBody .resolved fuel)).followedBy limit
          (runBody .resolved fuel) rest).sight
            (m.addHops (resolve (program'.map σ.stmt)).hops) := by
        symm
        refine hm.sight_eq (hshifted program') htable limit fuel (fun h hsees => ?_) hrest
        exact exec_abreast (runBody_abreast fuel) limit
          (hframed.mono fun i hi => ⟨hown hi _, hown hi _⟩) h hsees

/-- Take a program without errors, one occurrence in it of the tree of a for statement, and the
machine at any moment of a run of that program. Beside the tree runs the loop itself, as if its text
had been loaded anew: its variables have identities past those in use, and they are found where the
resolver finds them with all clauses in one scope, which it reports nothing on either. However many
rounds and calls there is fuel for, the two look the same: they end normally, with the same value or
with the same report, they have printed the same, and they leave the same in all frames that were
there before. Nor can the statements after them tell the two apart, even if they call functions that
were made in the loop. -/
theorem tree_means_loop {tokens : List Token} {k n : NodeId}
    (hparsed : parseProgram tokens k = ⟨program, [], n⟩) (hresolved : (resolve program).errors = [])
    (l : ForLoop) (hloop : Stmt.ReplacedIn l.tree (.block l.clauses) program program')
    {m : Machine} (hm : m.Running program n) (limit fuel : Nat) :
    (resolve program').errors = [] ∧
      (l.tree.exec .resolved limit (runBody .resolved fuel)).sight m =
        ((l.shift ⟨n, 0⟩).exec limit (runBody .resolved fuel)).sight
          (m.addHops (resolve (program'.map (Shift.mk n 0).stmt)).hops) ∧
      ∀ rest, (∀ i ∈ Stmt.idsOfAll rest, i < n) →
        ((l.tree.exec .resolved limit (runBody .resolved fuel)).followedBy limit
            (runBody .resolved fuel) rest).sight m =
          (((l.shift ⟨n, 0⟩).exec limit (runBody .resolved fuel)).followedBy limit
            (runBody .resolved fuel) rest).sight
              (m.addHops (resolve (program'.map (Shift.mk n 0).stmt)).hops) := by
  obtain ⟨ts, hderived⟩ : ∃ ts, Grammar.Declarations .nearest k ts program n := by
    have hclean : (parseProgram tokens k).errors = [] := by rw [hparsed]
    have hderived := parseProgram_derived hclean
    rwa [hparsed] at hderived
  have hafter (rest : List Stmt) (hrest : ∀ i ∈ Stmt.idsOfAll rest, i < n) :=
    sight_followedBy hderived.drawn hresolved hloop hm limit fuel hrest
  refine ⟨by rw [errors_resolve_clauses hloop, hresolved], ?_, hafter⟩
  have halone := hafter [] fun i hi => nomatch hi
  rwa [Run.followedBy_nil, Run.followedBy_nil] at halone

/-- The loop in `for (var i = true; i; i = false) print i;`. -/
def oneRound : ForLoop where
  initializer := some (.declare ⟨.identifier, "i", 1⟩ (some (.literal (.bool true))))
  condition := some (.var 0 ⟨.identifier, "i", 1⟩)
  increment := some (.assign 2 ⟨.identifier, "i", 1⟩ (.literal (.bool false)))
  body := .print (.var 3 ⟨.identifier, "i", 1⟩)
  isDeclaration_body := rfl
  regular_body := trivial

def oneRoundTokens : List Token :=
  let mark (p : Punctuator) : Token := ⟨.punctuator p, "", 1⟩
  let name : Token := ⟨.identifier, "i", 1⟩
  [⟨.keyword .for_, "for", 1⟩, mark .leftParen, ⟨.keyword .var_, "var", 1⟩, name, mark .equal,
    ⟨.keyword .true_, "true", 1⟩, mark .semicolon, name, mark .semicolon, name, mark .equal,
    ⟨.keyword .false_, "false", 1⟩, mark .rightParen, ⟨.keyword .print_, "print", 1⟩, name,
    mark .semicolon]

theorem tree_means_loop_oneRound :
    parseProgram oneRoundTokens 0 = ⟨[oneRound.tree], [], 4⟩ ∧
      (resolve [oneRound.tree]).errors = [] ∧
      (resolve [oneRound.tree]).hops[(3 : NodeId)]? = some 1 ∧
      (resolve [.block oneRound.clauses]).hops[(3 : NodeId)]? = some 0 ∧
      Stmt.ReplacedIn oneRound.tree (.block oneRound.clauses) [oneRound.tree]
        [.block oneRound.clauses] ∧
      ∃ m : Machine, m.Running [oneRound.tree] 4 ∧
        let loop := ((oneRound.shift ⟨4, 0⟩).exec 2 (runBody .resolved 0)).sight
          (m.addHops (resolve ([.block oneRound.clauses].map (Shift.mk 4 0).stmt)).hops)
        loop.outcome = .ok none ∧ loop.sink.written = "true\n".toUTF8 := by
  have hparsed : parseProgram oneRoundTokens 0 = ⟨[oneRound.tree], [], 4⟩ := rfl
  have hresolved : (resolve [oneRound.tree]).errors = [] := rfl
  have hloop : Stmt.ReplacedIn oneRound.tree (.block oneRound.clauses) [oneRound.tree]
      [.block oneRound.clauses] := .head .here
  have hdrawn : Grammar.Drawn 0 (Stmt.idsOfAll [oneRound.tree]) 4 :=
    ⟨by decide, by decide, by decide⟩
  have hm := (Session.wellFormed_after 0 .unlimited []).running hdrawn
  have hsight := (tree_means_loop hparsed hresolved oneRound hloop hm 2 0).2.1
  refine ⟨hparsed, hresolved, rfl, rfl, hloop, _, hm, ?_⟩
  dsimp only
  rw [← hsight]
  exact ⟨rfl, rfl⟩

end TreeWalk.ForLoop
