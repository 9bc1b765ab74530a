import TreeWalk.Proofs.Likeness.Shift
import TreeWalk.Proofs.Program.Joined
import TreeWalk.Proofs.Session.States

/-! Running two texts one after the other is running them as one text, with a line break between
them. All hop counts are then there from the start, and the lines of the second text are further
down; nothing else differs. -/

namespace TreeWalk

namespace Run

variable {policy : Policy} {fuel : Nat} {first rest : List Stmt} {m m₁ : Machine}

theorem executeEach_append (policy : Policy) (fuel : Nat) (first rest : List Stmt) :
    executeEach policy fuel (first ++ rest) =
      executeEach policy fuel first >>= fun _ => executeEach policy fuel rest := by
  induction first with
  | nil =>
    funext m
    rfl
  | cons s first ih => rw [List.cons_append, executeEach, ih, executeEach, bind_assoc]

/-- What is left of a program is run like a program of its own. -/
theorem interpret_append_ok (h : executeEach policy fuel first m = (.ok (), m₁)) :
    interpret policy fuel (first ++ rest) m = interpret policy fuel rest m₁ := by
  rw [interpret, interpret, executeEach_append, bind_assoc, Run.bind_apply, h]

theorem interpret_append_error {fault : Fault}
    (h : executeEach policy fuel first m = (.error fault, m₁)) :
    interpret policy fuel (first ++ rest) m = (.error fault, m₁) := by
  rw [interpret, executeEach_append, bind_assoc, Run.bind_apply, h]

/-- Flushing changes nothing when it does not fail. -/
theorem interpret_of_flush {result : Except Fault Unit} (hflush : m₁.sink.flushFails = false)
    (h : executeEach policy fuel first m = (result, m₁)) :
    interpret policy fuel first m = (result, m₁) := by
  rw [interpret, Run.bind_apply, h]
  cases result with
  | error fault => rfl
  | ok u =>
    simp only [flush, Run.bind_apply, Run.get_apply, Sink.flush, hflush]
    rfl

end Run

namespace Program.Joins

variable {lines : Nat} {s : Session} {first rest whole : Program}

/-- The first text runs in the same way whether or not the hop counts of the second are there. -/
theorem first_lockstep (h : Joins ⟨0, lines⟩ s.nextId first rest whole) (hs : s.WellFormed)
    (fuel : Nat) :
    Lockstep (.shifted ⟨0, 0⟩ 0 first.nextId (s.machine.hops ∪ first.resolution.hops))
      (fun _ => false)
      (s.machine.addHops first.resolution.hops) (s.machine.addHops whole.resolution.hops)
      (Run.executeEach .resolved fuel first.statements)
      (Run.executeEach .resolved fuel first.statements) fun _ _ _ _ => True := by
  have hkept (id : NodeId) : (⟨0, 0⟩ : Shift).nodeFrom 0 id = id :=
    Shift.nodeFrom_of_le (Nat.zero_le _)
  have hstart : (s.machine.addHops first.resolution.hops).Alike
      (.shifted ⟨0, 0⟩ 0 first.nextId (s.machine.hops ∪ first.resolution.hops)) (fun _ => false)
      (s.machine.addHops whole.resolution.hops) := by
    refine hs.machine.alike (fun _ => Or.inl rfl) (fun {_ _} => Iff.rfl) (fun hid => ?_)
      fun hc id hid => ?_
    · obtain ⟨hlt, rfl, hhops⟩ := hid
      rw [h.union, h.union_of_lt _ hlt]
      exact ⟨hhops, hhops⟩
    · exact ⟨_, Nat.lt_of_lt_of_le (hs.code hc id hid) h.drawn.le, (hkept id).symm, rfl⟩
  have hcode : Stmt.AllAlike (.shifted ⟨0, 0⟩ 0 first.nextId
      (s.machine.hops ∪ first.resolution.hops)) .plain first.statements first.statements :=
    Stmt.allAlike_self (fun _ => Or.inl rfl) (fun _ _ => rfl)
      fun id hid => ⟨_, (h.drawn.within id hid).2, (hkept id).symm, rfl⟩
  exact Run.executeEach_lockstep Likeness.shifted_faithful fuel hcode hstart Outlook.plain_fits

/-- Then the second text runs in the same way in a machine that takes its hop counts in now, and
further down in one that has had them from the start. -/
theorem rest_lockstep (h : Joins ⟨0, lines⟩ s.nextId first rest whole)
    {sorts : Labelling Bool} {m m' : Machine}
    (halike : m.Alike
      (.shifted ⟨0, 0⟩ 0 first.nextId (s.machine.hops ∪ first.resolution.hops)) sorts m')
    (hscope : m.scope = m.globals) (hhops : m.hops = s.machine.hops ∪ first.resolution.hops)
    (hhops' : m'.hops = s.machine.hops ∪ whole.resolution.hops) (fuel : Nat) :
    Lockstep (.shifted ⟨0, lines⟩ 0 rest.nextId (m.hops ∪ rest.resolution.hops)) sorts
      (m.addHops rest.resolution.hops) m'
      (Run.interpret .resolved fuel rest.statements)
      (Run.interpret .resolved fuel (rest.statements.map (Shift.stmt ⟨0, lines⟩)))
      fun _ _ _ _ => True := by
  have hmore : (Likeness.shifted ⟨0, 0⟩ 0 first.nextId
      (s.machine.hops ∪ first.resolution.hops)).Le
      (.shifted ⟨0, lines⟩ 0 rest.nextId (m.hops ∪ rest.resolution.hops)) := by
    refine Likeness.shifted_le rfl rfl h.drawn_rest.le fun id hid => ?_
    rw [hhops, h.union_of_lt _ hid]
  have hstart : (m.addHops rest.resolution.hops).Alike
      (.shifted ⟨0, lines⟩ 0 rest.nextId (m.hops ∪ rest.resolution.hops)) sorts m' := by
    refine halike.rehop hmore (fun hn => hn) fun hid => ?_
    obtain ⟨-, rfl, hd⟩ := hid
    rw [hhops] at hd ⊢
    rw [hhops', h.union]
    exact ⟨hd, hd⟩
  have hcode : Stmt.AllAlike (.shifted ⟨0, lines⟩ 0 rest.nextId (m.hops ∪ rest.resolution.hops))
      .plain rest.statements (rest.statements.map (Shift.stmt ⟨0, lines⟩)) :=
    Likeness.allAlike_shift fun id hid => ⟨Nat.zero_le _, (h.drawn_rest.within id hid).2⟩
  have hfits : Outlook.plain.Fits m.store sorts m.scope := hscope ▸ hstart.plain_fits
  exact Run.interpret_lockstep Likeness.shifted_faithful fuel hcode hstart hfits

end Program.Joins

namespace Session

/-- Two runs print the same, leave as many hop counts, and end in the same way, if need be with a
report on a line that is so many further down. -/
structure RunsAgree (lines : Nat) (run run' : Outcome × Session) : Prop where
  outcome : run.1.Lowered lines run'.1
  printed : run'.2.printed = run.2.printed
  localCount : run'.2.localCount = run.2.localCount

section Joined

variable {s : Session} {a b : String}

/-- Both texts at once run the statements of the first and then those of the second. -/
theorem run_of_joins {fuel : Nat} {result : Except Fault Unit} {m : Machine} {σ : Shift}
    {first rest whole : Program} (hwhole : Program.ofSource (a ++ "\n" ++ b) s.nextId = whole)
    (h : Program.Joins σ s.nextId first rest whole)
    (hrun : Run.interpret .resolved fuel (first.statements ++ rest.statements.map σ.stmt)
      (s.machine.addHops whole.resolution.hops) = (result, m)) :
    s.run fuel (a ++ "\n" ++ b) = (.ofResult result, ⟨m, whole.nextId⟩) := by
  rw [← h.statements] at hrun
  exact runUnder_accepted hwhole h.errors hrun

/-- After a first text that gets done, the second runs like the rest of both; after one that does
not, nothing of the rest is run. -/
theorem WellFormed.joined_agrees (hs : s.WellFormed) (hflush : s.machine.sink.flushFails = false)
    (ha : (Program.ofSource a s.nextId).errors = [])
    (hb : (Program.ofSource b (Program.ofSource a s.nextId).nextId).errors = []) (fuel : Nat) :
    ((s.run fuel a).1 = .done →
        RunsAgree (Source.below a).lines ((s.run fuel a).2.run fuel b)
          (s.run fuel (a ++ "\n" ++ b))) ∧
      ((s.run fuel a).1 ≠ .done → (s.run fuel (a ++ "\n" ++ b)).1 = (s.run fuel a).1 ∧
        (s.run fuel (a ++ "\n" ++ b)).2.printed = (s.run fuel a).2.printed) := by
  have hjoins := Program.ofSource_joins ha hb
  obtain ⟨hrun, hrun', -, hlater, halike, hends, hlater'⟩ := hjoins.first_lockstep hs fuel
  next sorts₁ result result' m₁ m₁' =>
  have hflush₁ : m₁.sink.flushFails = false := hlater.flushFails.trans hflush
  have hfirst : s.run fuel a = (.ofResult result, ⟨m₁, (Program.ofSource a s.nextId).nextId⟩) :=
    runUnder_accepted rfl ha (Run.interpret_of_flush hflush₁ hrun)
  have hsame : Outcome.ofResult result = .ofResult result' := hends.lowered.eq
  cases result with
  | error fault =>
    cases result' with
    | ok u => cases fault <;> cases hsame
    | error fault' =>
      -- The first text fails in both, and nothing after it is run.
      have hjoined := run_of_joins rfl hjoins (Run.interpret_append_error hrun')
      rw [hfirst, hjoined]
      refine ⟨fun hdone => ?_, fun _ => ⟨hsame.symm, congrArg Sink.written halike.sink.symm⟩⟩
      cases fault <;> cases hdone
  | ok u =>
    cases result' with
    | error fault' => cases fault' <;> cases hsame
    | ok u' =>
      -- Both go on with the second text, from machines that are alike.
      have hscope : m₁.scope = m₁.globals :=
        hlater.scope.trans (hs.scope.trans hlater.globals.symm)
      obtain ⟨hrun₂, hrun₂', -, hlater₂, halike₂, hends₂, hlater₂'⟩ :=
        hjoins.rest_lockstep halike hscope hlater.hops hlater'.hops fuel
      next sorts₂ result₂ result₂' m₂ m₂' =>
      have hsecond := runUnder_accepted (s := ⟨m₁, (Program.ofSource a s.nextId).nextId⟩) rfl hb
        hrun₂
      have hjoined := run_of_joins rfl hjoins ((Run.interpret_append_ok hrun').trans hrun₂')
      have hcount : m₂'.hops.size = m₂.hops.size := by
        have hhops : m₂.hops = m₁.hops ∪ _ := hlater₂.hops
        rw [hlater₂'.hops, hlater'.hops, hhops, hlater.hops]
        exact hjoins.size_union s.machine.hops
      rw [hfirst, hjoined]
      refine ⟨fun _ => ?_, fun hne => absurd rfl hne⟩
      rw [show Session.run fuel b _ = _ from hsecond]
      exact ⟨hends₂.lowered, congrArg Sink.written halike₂.sink.symm, hcount⟩

end Joined

/-- In any state that a session gets into, with a sink that does not fail to flush, take two texts
without errors. There are no errors in both with a line break between them either. If the first text
gets done, running it and then the second one agrees with running both at once; and if it does not,
running both at once ends in the same way and prints the same. -/
theorem run_joined (fuel₀ : Nat) (sink : Sink) (steps : List Step) {s : Session}
    (hs : s = after fuel₀ sink steps) (hflush : s.machine.sink.flushFails = false) {a b : String}
    {n n' : NodeId} (ha : (Program.ofSource a n).errors = [])
    (hb : (Program.ofSource b n').errors = []) :
    (∀ n, (Program.ofSource (a ++ "\n" ++ b) n).errors = []) ∧
      ∀ fuel,
        ((s.run fuel a).1 = .done →
          RunsAgree (Source.below a).lines ((s.run fuel a).2.run fuel b)
            (s.run fuel (a ++ "\n" ++ b))) ∧
        ((s.run fuel a).1 ≠ .done → (s.run fuel (a ++ "\n" ++ b)).1 = (s.run fuel a).1 ∧
          (s.run fuel (a ++ "\n" ++ b)).2.printed = (s.run fuel a).2.printed) := by
  have hanywhere {source : String} {n : NodeId} (h : (Program.ofSource source n).errors = [])
      (m : NodeId) : (Program.ofSource source m).errors = [] := by
    rw [Program.errors_eq source m n, h]
  have hwell : s.WellFormed := hs ▸ wellFormed_after fuel₀ sink steps
  refine ⟨fun m => ?_, fun fuel => ?_⟩
  · exact (Program.ofSource_joins (hanywhere ha m) (hanywhere hb _)).errors
  · exact hwell.joined_agrees hflush (hanywhere ha _) (hanywhere hb _) fuel

/-- A function whose body reads a global that is never declared. -/
def danglingRead : String := "fun f() \x7b return a; \x7d"

theorem danglingRead_tokens : Source.tokens danglingRead =
    [⟨.keyword .fun_, "fun", 1⟩, ⟨.identifier, "f", 1⟩, ⟨.punctuator .leftParen, "(", 1⟩,
      ⟨.punctuator .rightParen, ")", 1⟩, ⟨.punctuator .leftBrace, "\x7b", 1⟩,
      ⟨.keyword .return_, "return", 1⟩, localName, ⟨.punctuator .semicolon, ";", 1⟩,
      ⟨.punctuator .rightBrace, "\x7d", 1⟩, Token.endMark 1] := rfl

theorem danglingRead_program : Program.ofSource danglingRead 0 =
    { statements := [.function ⟨.identifier, "f", 1⟩ []
        [.returnFrom ⟨.keyword .return_, "return", 1⟩ (some (.var 0 localName))]]
      lexicalErrors := []
      syntacticErrors := []
      resolution := ⟨[⟨.read, 0, localName, none⟩], []⟩
      nextId := 1 } := by
  rw [Program.ofSource, danglingRead_tokens]
  rfl

theorem run_joined_danglingRead :
    (Program.ofSource danglingRead 0).errors = [] ∧ (Program.ofSource "f();" 0).errors = [] ∧
      (∀ n, (Program.ofSource (danglingRead ++ "\n" ++ "f();") n).errors = []) ∧
        ((initial .unlimited).run 3 danglingRead).1 = .done ∧
          RunsAgree 1 (((initial .unlimited).run 3 danglingRead).2.run 3 "f();")
            ((initial .unlimited).run 3 (danglingRead ++ "\n" ++ "f();")) := by
  have ha : (Program.ofSource danglingRead 0).errors = [] := by
    rw [danglingRead_program]
    rfl
  have htokens : Source.tokens "f();" =
      [⟨.identifier, "f", 1⟩, ⟨.punctuator .leftParen, "(", 1⟩, ⟨.punctuator .rightParen, ")", 1⟩,
        ⟨.punctuator .semicolon, ";", 1⟩, Token.endMark 1] := rfl
  have hb : (Program.ofSource "f();" 0).errors = [] := by
    rw [Program.ofSource, htokens]
    rfl
  have hrun :=
    @runUnder_accepted (initial .unlimited) 3 _ _ .resolved danglingRead_program rfl _ _ rfl
  have hdone : ((initial .unlimited).run 3 danglingRead).1 = .done := congrArg Prod.fst hrun
  have hcount : danglingRead.toList.count '\n' = 0 := by decide
  obtain ⟨herrors, hagree⟩ := run_joined 0 .unlimited [] rfl rfl ha hb
  have hjoined := (hagree 3).1 hdone
  rw [Source.below, hcount] at hjoined
  exact ⟨ha, hb, herrors, hdone, hjoined⟩

end Session

end TreeWalk
