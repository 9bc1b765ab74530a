import TreeWalk.Proofs.Likeness.Shift
import TreeWalk.Proofs.Program.Shift
import TreeWalk.Proofs.Session.States

/-! A rejected run leaves no trace. It only uses identities up, so a session with such a run in it
goes on like the session without, with its later identities further up. -/

namespace TreeWalk.Session

variable {σ : Shift} {start : NodeId} {s s' : Session}

/-- Two sessions that are in the same state, but for where one of them draws identities from since
`start`. -/
structure Shifted (σ : Shift) (start : NodeId) (s s' : Session) : Prop where
  lines : σ.lines = 0
  start_le : start ≤ s.nextId
  nextId : s'.nextId = σ.node s.nextId
  localCount : s'.localCount = s.localCount
  machine : ∃ sorts,
    s.machine.Alike (.shifted σ start s.nextId s.machine.hops) sorts s'.machine

/-- A session that has only used identities up is in the state it was in. -/
theorem WellFormed.shifted (hs : s.WellFormed) {n : NodeId} (hn : s.nextId ≤ n) :
    Shifted ⟨n - s.nextId, 0⟩ s.nextId s { s with nextId := n } := by
  refine ⟨rfl, Nat.le_refl _, (Nat.add_sub_cancel' hn).symm, rfl, fun _ => false, ?_⟩
  refine hs.machine.alike (fun _ => Or.inl rfl) (fun {_ _} => Iff.rfl) (fun hid => ?_)
    fun {f name c} hc id hid => ?_
  · obtain ⟨hlt, rfl, hhops⟩ := hid
    rw [Shift.nodeFrom_of_lt hlt]
    exact ⟨hhops, hhops⟩
  · have hlt := hs.code hc id hid
    exact ⟨_, hlt, (Shift.nodeFrom_of_lt hlt).symm, rfl⟩

namespace Shifted

theorem printed (h : Shifted σ start s s') : s'.printed = s.printed := by
  obtain ⟨sorts, halike⟩ := h.machine
  rw [Session.printed, Session.printed, halike.sink]

/-- A text is the same program for both sessions, with higher identities in one of them. -/
theorem program (h : Shifted σ start s s') (source : String) :
    (Program.ofSource source s.nextId).Shifted σ (Program.ofSource source s'.nextId) := by
  rw [h.nextId]
  exact Program.ofSource_shifted σ h.lines source s.nextId

/-- The machines are alike also when further identities are in use and both know as much more. -/
theorem rehop (h : Shifted σ start s s') {bound : NodeId} {table table' : HopTable}
    (hbound : s.nextId ≤ bound)
    (hold : ∀ id < s.nextId, table[id]? = s.machine.hops[id]?)
    (htable : ∀ id, table'[σ.nodeFrom start id]? = table[id]?) :
    ∃ sorts, ({ s.machine with hops := table } : Machine).Alike (.shifted σ start bound table) sorts
      { s'.machine with hops := table' } := by
  obtain ⟨sorts, halike⟩ := h.machine
  have hmore : (Likeness.shifted σ start s.nextId s.machine.hops).Le
      (.shifted σ start bound table) := Likeness.shifted_le h.lines rfl hbound hold
  refine ⟨sorts, halike.rehop hmore (fun hn => hn) fun hid => ?_⟩
  obtain ⟨-, rfl, hhops⟩ := hid
  exact ⟨hhops, (htable _).trans hhops⟩

section Run

variable (h : Shifted σ start s s') (hs : s.WellFormed) (hs' : s'.WellFormed)
  {source : String}
include h hs hs'

/-- Every identity has the same hop count in both sessions, or none in either. -/
theorem hops (id : NodeId) : s'.machine.hops[σ.nodeFrom start id]? = s.machine.hops[id]? := by
  obtain ⟨sorts, halike⟩ := h.machine
  rcases Nat.lt_or_ge id s.nextId with hold | hnew
  · exact (halike.hops ⟨hold, rfl, rfl⟩).2
  · have hnew' : s'.nextId ≤ σ.nodeFrom start id := by
      rw [Shift.nodeFrom_of_le (Nat.le_trans h.start_le hnew), h.nextId]
      exact Nat.add_le_add_right hnew _
    rw [hs.hops id hnew, hs'.hops _ hnew']

/-- The tables of hop counts stay in step when both take in those of one text. -/
theorem hops_union (haccepted : (Program.ofSource source s.nextId).errors = []) (id : NodeId) :
    (s'.machine.hops ∪ (Program.ofSource source s'.nextId).resolution.hops)[σ.nodeFrom start id]? =
      (s.machine.hops ∪ (Program.ofSource source s.nextId).resolution.hops)[id]? := by
  have hprogram := h.program source
  have haccepted' : (Program.ofSource source s'.nextId).errors = [] := by
    rw [hprogram.errors, haccepted]
  have htext : (Program.ofSource source s'.nextId).resolution.hops[σ.nodeFrom start id]? =
      (Program.ofSource source s.nextId).resolution.hops[id]? := by
    rcases Nat.lt_or_ge id s.nextId with hold | hnew
    · have hold' : σ.nodeFrom start id < s'.nextId := h.nextId ▸ Shift.nodeFrom_lt hold
      rw [Program.hops_of_lt haccepted hold, Program.hops_of_lt haccepted' hold']
    · rw [Shift.nodeFrom_of_le (Nat.le_trans h.start_le hnew), hprogram.hops]
  rw [Std.TreeMap.getElem?_union, Std.TreeMap.getElem?_union, htext, h.hops hs hs']

theorem size_union (haccepted : (Program.ofSource source s.nextId).errors = []) :
    (s'.machine.hops ∪ (Program.ofSource source s'.nextId).resolution.hops).size =
      (s.machine.hops ∪ (Program.ofSource source s.nextId).resolution.hops).size := by
  have hprogram := h.program source
  have haccepted' : (Program.ofSource source s'.nextId).errors = [] := by
    rw [hprogram.errors, haccepted]
  have hcount : s'.machine.hops.size = s.machine.hops.size := h.localCount
  rw [hs.size_hops haccepted, hs'.size_hops haccepted', hcount, hprogram.size]

/-- Both sessions reject the same texts for the same reasons. -/
theorem run_rejected (hrejected : (Program.ofSource source s.nextId).errors ≠ []) (fuel : Nat) :
    (s'.run fuel source).1 = (s.run fuel source).1 ∧
      Shifted σ start (s.run fuel source).2 (s'.run fuel source).2 := by
  have hprogram := h.program source
  have hle := Program.le_nextId source s.nextId
  have hresult : s.run fuel source = (.rejected (Program.ofSource source s.nextId).errors,
      { s with nextId := (Program.ofSource source s.nextId).nextId }) :=
    runUnder_rejected rfl hrejected
  have hresult' : s'.run fuel source = (.rejected (Program.ofSource source s'.nextId).errors,
      { s' with nextId := (Program.ofSource source s'.nextId).nextId }) :=
    runUnder_rejected rfl (hprogram.errors ▸ hrejected)
  rw [hresult, hresult', hprogram.errors]
  exact ⟨rfl, h.lines, Nat.le_trans h.start_le hle, hprogram.nextId, h.localCount,
    h.rehop hle (fun _ _ => rfl) (h.hops hs hs')⟩

/-- What both accept ends in the same way and prints the same. -/
theorem run_accepted (haccepted : (Program.ofSource source s.nextId).errors = []) (fuel : Nat) :
    (s'.run fuel source).1 = (s.run fuel source).1 ∧
      Shifted σ start (s.run fuel source).2 (s'.run fuel source).2 := by
  have hprogram := h.program source
  have haccepted' : (Program.ofSource source s'.nextId).errors = [] := by
    rw [hprogram.errors, haccepted]
  have hdrawn := Program.drawn haccepted
  have hsize := h.size_union hs hs' haccepted
  obtain ⟨sorts, hstart⟩ := h.rehop hdrawn.le
    (fun id hid => Program.union_of_lt haccepted s.machine.hops hid)
    (h.hops_union hs hs' haccepted)
  have hcode : Stmt.AllAlike (.shifted σ start (Program.ofSource source s.nextId).nextId
      (s.machine.hops ∪ (Program.ofSource source s.nextId).resolution.hops)) .plain
      (Program.ofSource source s.nextId).statements
      (Program.ofSource source s'.nextId).statements := by
    rw [hprogram.statements]
    refine Likeness.allAlike_shift fun id hid => ?_
    have hwithin := hdrawn.within id hid
    exact ⟨Nat.le_trans h.start_le hwithin.1, hwithin.2⟩
  have hfits : Outlook.plain.Fits s.machine.store sorts s.machine.scope :=
    hs.scope ▸ hstart.plain_fits
  obtain ⟨hrun, hrun', -, hlater, hend, hends, hlater'⟩ :=
    Run.interpret_lockstep Likeness.shifted_faithful fuel hcode hstart hfits
  next sorts₁ result result' m₁ m₁' =>
  have hresult : s.run fuel source =
      (.ofResult result, ⟨m₁, (Program.ofSource source s.nextId).nextId⟩) :=
    runUnder_accepted rfl haccepted hrun
  have hresult' : s'.run fuel source =
      (.ofResult result', ⟨m₁', (Program.ofSource source s'.nextId).nextId⟩) :=
    runUnder_accepted rfl haccepted' hrun'
  have hlowered := hends.lowered
  rw [h.lines] at hlowered
  rw [hresult, hresult']
  refine ⟨hlowered.eq.symm, h.lines, Nat.le_trans h.start_le hdrawn.le, hprogram.nextId, ?_,
    sorts₁, ?_⟩
  · change m₁'.hops.size = m₁.hops.size
    rw [hlater.hops, hlater'.hops]
    exact hsize
  · rwa [hlater.hops]

/-- Any step has the same answer in both sessions. -/
theorem step (fuel : Nat) (first : Step) : (s'.step fuel first).1 = (s.step fuel first).1 ∧
    Shifted σ start (s.step fuel first).2 (s'.step fuel first).2 := by
  cases first with
  | defineHost name arity body =>
    obtain ⟨sorts, halike⟩ := h.machine
    have hname : (Likeness.shifted σ start s.nextId s.machine.hops).spelled false name name := rfl
    have hdefined := halike.defineHost Likeness.shifted_faithful hname arity body
    exact ⟨rfl, h.lines, h.start_le, h.nextId, h.localCount, sorts, hdefined⟩
  | run source =>
    have hrun : (s'.run fuel source).1 = (s.run fuel source).1 ∧
        Shifted σ start (s.run fuel source).2 (s'.run fuel source).2 := by
      by_cases haccepted : (Program.ofSource source s.nextId).errors = []
      · exact h.run_accepted hs hs' haccepted fuel
      · exact h.run_rejected hs hs' haccepted fuel
    obtain ⟨houtcome, hafter⟩ := hrun
    refine ⟨?_, hafter⟩
    rw [step_run, step_run, houtcome, h.printed, hafter.printed, hafter.localCount]

end Run

/-- By induction on the steps, each of which leaves the sessions in the same state. -/
theorem steps {ps ps' : List Program} {c c' : Context} (h : Shifted σ start s s')
    (hs : s.Sound ps c) (hs' : s'.Sound ps' c') (fuel : Nat)
    (steps : List Step) : s'.steps fuel steps = s.steps fuel steps := by
  induction steps generalizing s s' ps ps' c c' with
  | nil => rfl
  | cons first rest ih =>
    obtain ⟨hanswer, hafter⟩ := h.step hs.wellFormed hs'.wellFormed fuel first
    obtain ⟨_, _, hnext⟩ := hs.step fuel first
    obtain ⟨_, _, hnext'⟩ := hs'.step fuel first
    rw [steps_cons, steps_cons, hanswer, ih hafter hnext hnext']

end Shifted

/-- A text that one session rejects is rejected by every other one, and prints nothing there. -/
theorem step_of_rejected {fuel₀ : Nat} {source : String} {ds : List Diagnostic}
    (h : (s.run fuel₀ source).1 = .rejected ds) (fuel : Nat) (s' : Session) :
    s'.step fuel (.run source) = (.ran (.rejected ds) ByteArray.empty s'.localCount,
      { s' with nextId := (Program.ofSource source s'.nextId).nextId }) := by
  obtain ⟨herrors, hne⟩ := run_eq_rejected_iff.mp h
  rw [Program.errors_eq source s.nextId s'.nextId] at herrors
  have hprinted : s'.printed.extract s'.printed.size s'.printed.size = ByteArray.empty :=
    ByteArray.extract_same
  have hrun : s'.run fuel source =
      (.rejected ds, { s' with nextId := (Program.ofSource source s'.nextId).nextId }) :=
    herrors ▸ runUnder_rejected rfl (herrors ▸ hne)
  rw [step_run, hrun, ← hprinted]
  rfl

/-- Take steps of a new session, and put a run of a text between them that is rejected. All steps
answer as they did without it, and the run itself only answers that it is rejected: it prints
nothing and leaves the number of hop counts as it was. -/
theorem steps_rejected (fuel : Nat) (sink : Sink) (before later : List Step) {source : String}
    {ds : List Diagnostic} {s₀ : Session} {fuel₀ : Nat}
    (h : (s₀.run fuel₀ source).1 = .rejected ds) :
    ∃ answers answers', answers.length = before.length ∧
      steps fuel (initial sink) (before ++ later) = answers ++ answers' ∧
      steps fuel (initial sink) (before ++ .run source :: later) =
        answers ++
          .ran (.rejected ds) ByteArray.empty (after fuel sink before).localCount :: answers' := by
  obtain ⟨ps, c, hsound⟩ := sound_after fuel sink before
  have hle := Program.le_nextId source (after fuel sink before).nextId
  have hshifted := hsound.wellFormed.shifted hle
  have hrun := step_of_rejected h fuel (after fuel sink before)
  obtain ⟨ps', c', hsound'⟩ := hsound.step fuel (.run source)
  rw [hrun] at hsound'
  have hlater := hshifted.steps hsound hsound' fuel later
  refine ⟨steps fuel (initial sink) before, (after fuel sink before).steps fuel later,
    length_steps .., steps_append .., ?_⟩
  rw [steps_append, ← after, steps_cons, hrun, hlater]

/-- The report on a statement that lacks its semicolon. -/
def missingSemicolon : Diagnostic :=
  .syntactic (Token.endMark 1) (.expected .semicolonAfterExpression)

theorem steps_rejected_missingSemicolon :
    ((initial .unlimited).run 1 "a").1 = .rejected [missingSemicolon] ∧
      ∃ answers answers', answers.length = 1 ∧
        steps 1 (initial .unlimited) [.run localRead, .run localRead] = answers ++ answers' ∧
        steps 1 (initial .unlimited) [.run localRead, .run "a", .run localRead] =
          answers ++ .ran (.rejected [missingSemicolon]) ByteArray.empty
            (after 1 .unlimited [.run localRead]).localCount :: answers' := by
  have hrejected : ((initial .unlimited).run 1 "a").1 = .rejected [missingSemicolon] := rfl
  exact ⟨hrejected, steps_rejected 1 .unlimited [.run localRead] [.run localRead] hrejected⟩

end TreeWalk.Session
