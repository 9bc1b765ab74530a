import TreeWalk.Proofs.Likeness.Execution
import TreeWalk.Proofs.Padding.Execution
import TreeWalk.Proofs.Syntax.Shift

/-! What is seen of a run from outside. Runs that go abreast look the same, and so do runs of the
same code under other identities. -/

namespace TreeWalk

/-- What a statement that returns is seen to return. -/
def Flow.view? : Flow → Option View
  | normal => none
  | returned v => some v.view

/-- What is seen of a run from outside: how it ended, what has been printed, which frame is current
again, and what the names stand for in the frames that were there before the run. -/
structure Sight where
  outcome : Except Fault (Option View)
  sink : Sink
  scope : FrameId
  values : FrameId → String → Option View

def Run.sight (r : Run Flow) (m : Machine) : Sight where
  outcome := (r m).1.map Flow.view?
  sink := (r m).2.sink
  scope := (r m).2.scope
  values f name := if f < m.store.nextFrame then ((r m).2.store.get? f name).map Value.view else none

section Sight

variable {m m' m₁ m₁' : Machine} {r r' : Run Flow} {result result' : Except Fault Flow}

theorem Run.sight_eq (hrun : r m = (result, m₁)) (hrun' : r' m' = (result', m₁'))
    (houtcome : result.map Flow.view? = result'.map Flow.view?) (hsink : m₁.sink = m₁'.sink)
    (hscope : m₁.scope = m₁'.scope) (hnext : m.store.nextFrame = m'.store.nextFrame)
    (hvalues : ∀ f < m.store.nextFrame, ∀ name, Option.Rel (fun v v' => v.view = v'.view)
      (m₁.store.get? f name) (m₁'.store.get? f name)) : r.sight m = r'.sight m' := by
  rw [sight, sight, hrun, hrun', houtcome, hsink, hscope, ← hnext]
  congr 1
  funext f name
  split
  · next hf =>
    have hrel := hvalues f hf name
    dsimp only
    generalize m₁.store.get? f name = o, m₁'.store.get? f name = o' at hrel
    cases hrel with
    | none => rfl
    | some hview => exact congrArg some hview
  · rfl

/-- Two runs that go abreast look the same, if every old frame is in its own place. -/
theorem Abreast.sight {table table' : HopTable}
    (h : Abreast table table' id m m' r r' (Flow.Padded table table'))
    (hnext : m.store.nextFrame = m'.store.nextFrame) (hscope : m.scope = m'.scope) :
    r.sight m = r'.sight m' := by
  obtain ⟨hrun, hrun', hlater, hpadded, hends⟩ := h
  next φ₁ result result' m₁ m₁' =>
  refine Run.sight_eq hrun hrun' ?_ hpadded.sink.symm ?_ hnext fun f hf name => ?_
  · cases hends with
    | error => rfl
    | ok hflow =>
      cases hflow with
      | normal => rfl
      | returned hv => exact congrArg (fun view => Except.ok (some view)) hv.view
  · rw [hlater.later.scope, hlater.later'.scope, hscope]
  · have hrel := hpadded.values f (Nat.lt_of_lt_of_le hf hlater.later.store.le) name
    rw [hlater.agree f hf, id] at hrel
    generalize m₁.store.get? f name = o, m₁'.store.get? f name = o' at hrel
    cases hrel with
    | none => exact .none
    | some hv => exact .some hv.view

end Sight

/-- Goes on with statements after an action, unless it returns. -/
def Run.followedBy (limit : Nat) (run : Region → Run Flow) (r : Run Flow) (rest : List Stmt) :
    Run Flow := do
  match ← r with
  | .normal => Stmt.execAll .resolved limit run rest
  | .returned v => return .returned v

theorem Run.followedBy_nil (limit : Nat) (run : Region → Run Flow) (r : Run Flow) :
    r.followedBy limit run [] = r := by
  rw [followedBy]
  conv_rhs => rw [← bind_pure r]
  refine congrArg (r >>= ·) (funext fun flow => ?_)
  cases flow <;> rfl

/-- Actions that go abreast still do so with the same statements after them. -/
theorem Abreast.followedBy {table table' : HopTable} {φ : Labelling FrameId} {m m' : Machine}
    {g : Gaps} {run run' : Region → Run Flow} {r r' : Run Flow}
    (h : Abreast table table' φ m m' r r' (Flow.Padded table table'))
    (hrun : RunsAbreast table table' run run') (limit : Nat) (hm : m.Padded table table' φ m')
    (hsees : g.Sees φ m.store m'.store m.scope m'.scope) {rest : List Stmt}
    (hrest : Stmt.AllPadded (table.Padded table') g rest rest) :
    Abreast table table' φ m m' (r.followedBy limit run rest) (r'.followedBy limit run' rest)
      (Flow.Padded table table') := by
  refine h.bind fun φ₁ m₁ m₁' flow flow' hlater h₁ hflow => ?_
  cases hflow with
  | normal => exact Stmt.execAll_abreast hrun limit hrest h₁ (hsees.kept hm hlater)
  | returned hv => exact .pure h₁ (.returned hv)

/-- The same tokens, and identities that stay or go up. Those in use are the ones before `bound`,
and only those in `ids` may go up. -/
def Likeness.copied (σ : Shift) (bound : NodeId) (ids : List NodeId) (hops : HopTable) :
    Likeness where
  node i i' d := i < bound ∧ (i' = i ∨ i ∈ ids ∧ i' = σ.node i) ∧ hops[i]? = d
  line n n' := n = n'
  spelled _ n n' := n = n'

section Copied

variable {σ : Shift} {bound : NodeId} {ids : List NodeId} {hops : HopTable}

namespace Likeness

theorem copied_faithful : (copied σ bound ids hops).Faithful := by
  intro sort n n' k k' hn hk
  rw [show n = n' from hn, show k = k' from hk]

/-- Code is alike to itself. -/
theorem allAlike_kept {ss : List Stmt} (h : ∀ i ∈ Stmt.idsOfAll ss, i < bound) :
    Stmt.AllAlike (copied σ bound ids hops) .plain ss ss :=
  Stmt.allAlike_self (fun _ => rfl) (fun _ _ => rfl) fun i hi => ⟨_, h i hi, .inl rfl, rfl⟩

/-- Code is alike to the same code with identities further up. -/
theorem alike_copy (hlines : σ.lines = 0) {s : Stmt} (h : ∀ i ∈ s.ids, i < bound ∧ i ∈ ids) :
    Stmt.Alike (copied σ bound ids hops) .plain s (σ.stmt s) := by
  have htoken (t : TreeWalk.Token) : (copied σ bound ids hops).Token t (σ.token t) := by
    rw [σ.token_eq hlines]
    exact ⟨rfl, rfl, rfl⟩
  have hname (t : TreeWalk.Token) : (copied σ bound ids hops).Name false t (σ.token t) := by
    rw [σ.token_eq hlines]
    exact ⟨rfl, rfl, rfl⟩
  refine Stmt.alike_map htoken (fun i hi => ?_) fun t _ => hname t
  obtain ⟨hlt, hmem⟩ := h i hi
  exact ⟨_, hlt, .inr ⟨hmem, rfl⟩, rfl⟩

/-- The reports are the same, lines and all. -/
theorem Failure.eq_of_copied {d d' : Diagnostic} (h : (copied σ bound ids hops).Failure d d') :
    d = d' := by
  have htoken {t t' : TreeWalk.Token} (hkind : t.kind = t'.kind) (hlexeme : t.lexeme = t'.lexeme)
      (hline : t.line = t'.line) : t = t' := by
    cases t
    cases t'
    simp_all
  cases h with
  | runtime ht => rw [htoken ht.kind ht.lexeme ht.line]
  | undefined _ ht => rw [htoken ht.kind ht.spelled ht.line]
  | sink => rfl

theorem Ends.outcome_of_copied {sorts : Labelling Bool} {store : Store}
    {result result' : Except Fault Flow}
    (h : (copied σ bound ids hops).Ends (Flow.Alike (copied σ bound ids hops) sorts store) result
      result') : result.map Flow.view? = result'.map Flow.view? := by
  cases h with
  | ok hflow =>
    cases hflow with
    | normal => rfl
    | returned hv => exact congrArg (fun view => Except.ok (some view)) hv.view
  | failure hd => rw [hd.eq_of_copied]
  | exhausted => rfl

end Likeness

/-- Two runs in lockstep look the same. -/
theorem Lockstep.sight {sorts : Labelling Bool} {m m' : Machine} {r r' : Run Flow}
    (h : Lockstep (.copied σ bound ids hops) sorts m m' r r' (Flow.Alike (.copied σ bound ids hops)))
    (hm : m.Alike (.copied σ bound ids hops) sorts m') : r.sight m = r'.sight m' := by
  obtain ⟨hrun, hrun', -, -, halike, hends, -⟩ := h
  next sorts₁ result result' m₁ m₁' =>
  refine Run.sight_eq hrun hrun' hends.outcome_of_copied halike.sink halike.scope hm.nextFrame
    fun f _ name => ?_
  have hspelled : (Likeness.copied σ bound ids hops).spelled (sorts₁ f) name name := rfl
  have hrel := halike.values f hspelled
  generalize m₁.store.get? f name = o, m₁'.store.get? f name = o' at hrel
  cases hrel with
  | none => exact .none
  | some hv => exact .some hv.view

end Copied

end TreeWalk
