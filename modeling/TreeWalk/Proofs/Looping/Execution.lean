import TreeWalk.Proofs.Looping.Resolution
import TreeWalk.Proofs.Padding.Execution

/-! A loop and its tree run abreast. The tree has a further frame for every round if the loop has an
increment. -/

namespace TreeWalk

theorem Stmt.execAll_append (policy : Policy) (limit : Nat) (run : Region → Run Flow)
    (ss ss' : List Stmt) : execAll policy limit run (ss ++ ss') = do
      match ← execAll policy limit run ss with
      | .normal => execAll policy limit run ss'
      | .returned v => return .returned v := by
  induction ss with
  | nil => rw [List.nil_append, execAll, pure_bind]
  | cons s ss ih =>
    rw [List.cons_append, execAll, execAll, bind_assoc]
    refine bind_congr fun flow => ?_
    cases flow with
    | normal => exact ih
    | returned v => rw [pure_bind]

namespace ForLoop

variable {l : ForLoop} {table table' : HopTable} {φ : Labelling FrameId} {m m' : Machine}
  {run run' : Region → Run Flow}

theorem holds_abreast (hrun : RunsAbreast table table' run run') (hl : l.Framed table table')
    (h : m.Padded table table' φ m') (hsees : Gaps.Sees id φ m.store m'.store m.scope m'.scope) :
    Abreast table table' φ m m' (l.holds run)
      (do return (← (l.condition.getD (.literal (.bool true))).eval .resolved run').truthy)
      fun _ _ _ b b' => b = b' := by
  have hcondition := hl.condition
  rw [holds]
  cases hc : l.condition with
  | none => exact .congr (.pure h rfl) rfl rfl
  | some e =>
    rw [hc] at hcondition
    refine (e.eval_abreast hrun h hsees hcondition).bind fun _ _ _ v v' _ h₁ hv => ?_
    exact .pure h₁ hv.truthy

theorem advance_abreast {g : Gaps} (hrun : RunsAbreast table table' run run') {e : Expr}
    (he : l.increment = some e) (hids : ∀ i ∈ e.ids, table.Padded table' g i)
    (h : m.Padded table table' φ m') (hsees : g.Sees φ m.store m'.store m.scope m'.scope) :
    Abreast table table' φ m m' (l.advance run) (discard (e.eval .resolved run'))
      fun _ _ _ _ _ => True := by
  rw [advance, he]
  exact (e.eval_abreast hrun h hsees hids).discard

/-- Where there is no increment, nothing comes after the body. -/
theorem pass_of_none (hi : l.increment = none) (limit : Nat) :
    l.pass limit run = l.body.exec .resolved limit run := by
  rw [pass, advance, hi]
  conv_rhs => rw [← bind_pure (l.body.exec .resolved limit run)]
  refine bind_congr fun flow => ?_
  cases flow with
  | normal => rw [pure_bind]
  | returned v => rfl

/-- The increment of the tree is a statement after the body, in the further frame of the round. -/
theorem pass_abreast (hrun : RunsAbreast table table' run run') (limit : Nat)
    (hl : l.Framed table table') (h : m.Padded table table' φ m')
    (hsees : Gaps.Sees id φ m.store m'.store m.scope m'.scope) :
    Abreast table table' φ m m' (l.pass limit run) (l.turn.exec .resolved limit run')
      (Flow.Padded table table') := by
  have hbody := hl.body
  have hincrement := hl.increment
  rw [gaps] at hbody hincrement
  rw [turn]
  cases hi : l.increment with
  | none =>
    rw [hi] at hbody
    rw [pass_of_none hi]
    exact Stmt.exec_abreast hrun limit hbody h hsees
  | some e =>
    rw [hi] at hbody hincrement
    have hopened : m.Padded table table' φ (m'.opened [] m'.scope) := h.further h.rooted'.scope_lt
    have hinside := hsees.under h.rooted'.nested h.rooted'.scope_lt []
    suffices hinner : Abreast table table' φ m (m'.opened [] m'.scope) (l.pass limit run)
        (Stmt.execAll .resolved limit run' [l.body, .expression e]) (Flow.Padded table table') from
      (Abreast.inFurtherFrame hinner h).congr rfl rfl
    simp only [pass, Stmt.execAll, Stmt.exec]
    refine (Stmt.exec_abreast hrun limit hbody hopened hinside).bind
      fun φ₁ m₁ m₁' flow flow' hlater h₁ hflow => ?_
    cases hflow with
    | returned hv => exact .pure h₁ (.returned hv)
    | normal =>
      have hadvance := advance_abreast hrun hi hincrement h₁ (hinside.kept hopened hlater)
      simp only [bind_assoc, pure_bind]
      exact hadvance.bind fun _ _ _ _ _ _ h₂ _ => .pure h₂ .normal

/-- A round of the loop and one of the tree. -/
theorem round_abreast (hrun : RunsAbreast table table' run run') (limit : Nat)
    (hl : l.Framed table table') (h : m.Padded table table' φ m')
    (hsees : Gaps.Sees id φ m.store m'.store m.scope m'.scope) :
    Abreast table table' φ m m' (l.round limit run)
      (do
        if (← (l.condition.getD (.literal (.bool true))).eval .resolved run').truthy then
          return some (← l.turn.exec .resolved limit run')
        else return none)
      fun φ₁ store store' => Option.Rel (Flow.Padded table table' φ₁ store store') := by
  suffices hround : Abreast table table' φ m m' (l.round limit run)
      ((do return (← (l.condition.getD (.literal (.bool true))).eval .resolved run').truthy) >>=
        fun b => do if b then return some (← l.turn.exec .resolved limit run') else return none)
      (fun φ₁ store store' => Option.Rel (Flow.Padded table table' φ₁ store store')) by
    simpa only [bind_assoc, pure_bind] using hround
  refine (holds_abreast hrun hl h hsees).bind fun φ₁ m₁ m₁' b b' hlater h₁ hb => ?_
  have hpass := pass_abreast hrun limit hl h₁ (hsees.kept h hlater)
  refine .ite (by rw [hb]) ?_ (.pure h₁ .none)
  exact hpass.bind fun _ _ _ _ _ _ h₂ hflow => .pure h₂ (.some hflow)

/-- By induction on the rounds. -/
theorem exec_abreast (hrun : RunsAbreast table table' run run') (limit : Nat)
    (hl : l.Framed table table') (h : m.Padded table table' φ m')
    (hsees : Gaps.Sees id φ m.store m'.store m.scope m'.scope) :
    Abreast table table' φ m m' (l.exec limit run) (l.framed.exec .resolved limit run')
      (Flow.Padded table table') := by
  obtain ⟨hopened, hinside⟩ := h.opened_empty hsees
  rw [Gaps.enter_id] at hinside
  suffices hinner : Abreast table table' (φ.extend m.store.nextFrame m'.store.nextFrame)
      (m.opened [] m.scope) (m'.opened [] m'.scope)
      (do
        match ← Stmt.execAll .resolved limit run l.initializer.toList with
        | .normal => Run.iterate (l.round limit run) limit
        | .returned v => return .returned v)
      (Stmt.execAll .resolved limit run' (l.initializer.toList ++ [l.loop]))
      (Flow.Padded table table') from (Abreast.inNewFrame hinner h).congr rfl rfl
  rw [Stmt.execAll_append]
  refine (Stmt.execAll_abreast hrun limit hl.initializer hopened hinside).bind
    fun φ₁ m₁ m₁' flow flow' hlater h₁ hflow => ?_
  cases hflow with
  | returned hv => exact .pure h₁ (.returned hv)
  | normal =>
    have hinside₁ := hinside.kept hopened hlater
    rw [Stmt.execAll_singleton, loop]
    simp only [Stmt.exec]
    exact Run.iterate_abreast (fun h hsees => round_abreast hrun limit hl h hsees) limit h₁ hinside₁

end ForLoop

end TreeWalk
