import TreeWalk.Proofs.Machine.Basic
import TreeWalk.Proofs.Resolution.Table

/-! Statements in which no `return` is reported outside of functions never end on the way out of
one, so a program may be run statement by statement without a look at the flow. -/

namespace TreeWalk

/-- Whatever an action ends with, from any machine, has the property. -/
def Run.Yields {α : Type} (r : Run α) (q : α → Prop) : Prop :=
  ∀ m a, (r m).1 = .ok a → q a

namespace Run.Yields

variable {α β : Type} {p : α → Prop} {q : β → Prop} {r : Run α} {f : α → Run β}

theorem pure {a : α} (h : p a) : (Pure.pure a : Run α).Yields p := by
  intro m a' h'
  cases h'
  exact h

theorem bind (hr : r.Yields p) (hf : ∀ a, p a → (f a).Yields q) : (r >>= f).Yields q := by
  intro m b h
  rw [Run.bind_apply] at h
  cases hrun : r m with
  | mk result m' =>
    rw [hrun] at h
    cases result with
    | error fault => cases h
    | ok a =>
      have ha : p a := hr m a (by rw [hrun])
      exact hf a ha m' b h

/-- What an action ends with does not matter where all that may follow it has the property. -/
theorem seq (hf : ∀ a, (f a).Yields q) : (r >>= f).Yields q :=
  bind (fun _ _ _ => trivial) fun a (_ : True) => hf a

theorem inNewFrame (bindings : Bindings) (enclosing : FrameId) (hr : r.Yields p) :
    (Run.inNewFrame bindings enclosing r).Yields p :=
  fun m a h => hr (m.opened bindings enclosing) a h

/-- By induction on the rounds. -/
theorem iterate {step : Run (Option Flow)}
    (hstep : step.Yields fun o => ∀ flow, o = some flow → flow = .normal) (limit : Nat) :
    (Run.iterate step limit).Yields (· = .normal) := by
  induction limit with
  | zero =>
    intro m flow h
    cases h
  | succ limit ih =>
    rw [Run.iterate_succ]
    refine hstep.bind fun o ho => ?_
    cases o with
    | none => exact pure rfl
    | some flow =>
      have hflow : flow = .normal := ho flow rfl
      subst hflow
      exact ih

end Run.Yields

section Flow

variable (policy : Policy) (limit : Nat) (run : Region → Run Flow)

mutual

/-- A call inside the statement may well meet a `return`: what a call yields is a value, and so its
flow is lost there. -/
theorem Stmt.exec_yields_normal (s : Stmt) {scopes : List Scope}
    (hs : ∀ keyword, .error (.scoping keyword .topLevelReturn) ∉ (s.findings false scopes).2) :
    (s.exec policy limit run).Yields (· = .normal) := by
  match s with
  | .expression e =>
    exact .seq fun _ => .pure rfl
  | .print e =>
    exact .seq fun _ => .seq fun _ => .pure rfl
  | .declare name initializer =>
    exact .seq fun _ => .seq fun _ => .pure rfl
  | .block body =>
    have hbody := Stmt.execAll_yields_normal body hs
    exact .seq fun m => .inNewFrame _ _ (.seq fun _ => hbody)
  | .ifThen condition thenBranch =>
    simp only [Stmt.findings, List.mem_append, not_or] at hs
    have hthen := thenBranch.exec_yields_normal fun keyword => (hs keyword).2
    refine .seq fun v => ?_
    split
    · exact hthen
    · exact .pure rfl
  | .ifElse condition thenBranch elseBranch =>
    simp only [Stmt.findings, List.mem_append, not_or] at hs
    have hthen := thenBranch.exec_yields_normal fun keyword => (hs keyword).1.2
    have helse := elseBranch.exec_yields_normal fun keyword => (hs keyword).2
    refine .seq fun v => ?_
    split
    · exact hthen
    · exact helse
  | .whileLoop condition body =>
    simp only [Stmt.findings, List.mem_append, not_or] at hs
    have hbody := body.exec_yields_normal fun keyword => (hs keyword).2
    refine .iterate (.seq fun v => ?_) limit
    split
    · refine hbody.bind fun flow hflow => .pure ?_
      rintro _ ⟨⟩
      exact hflow
    · exact .pure fun flow h => nomatch h
  | .function name params body =>
    exact .seq fun _ => .seq fun _ => .pure rfl
  | .returnFrom keyword value =>
    exact absurd (List.mem_cons_self ..) (hs keyword)

theorem Stmt.execAll_yields_normal (ss : List Stmt) {scopes : List Scope}
    (hs : ∀ keyword, .error (.scoping keyword .topLevelReturn) ∉
      (Stmt.findingsOfAll false scopes ss).2) :
    (Stmt.execAll policy limit run ss).Yields (· = .normal) := by
  match ss with
  | [] => exact .pure rfl
  | s :: ss =>
    simp only [Stmt.findingsOfAll, List.mem_append, not_or] at hs
    refine (s.exec_yields_normal fun keyword => (hs keyword).1).bind fun flow hflow => ?_
    subst hflow
    exact Stmt.execAll_yields_normal ss fun keyword => (hs keyword).2

end

end Flow

/-- What an action that only ever yields one result does next, it does for that result. -/
theorem Run.Yields.bind_eq {α β : Type} {r : Run α} {a : α} (h : r.Yields (· = a)) {f g : α → Run β}
    (hfg : f a = g a) : r >>= f = r >>= g := by
  funext m
  have hm := h m
  rw [Run.bind_apply, Run.bind_apply]
  cases hrun : r m with
  | mk result m' =>
    rw [hrun] at hm
    cases result with
    | error fault => rfl
    | ok a' =>
      have ha : a' = a := hm a' rfl
      subst ha
      exact congrFun hfg m'

theorem Run.executeEach_cons (policy : Policy) (fuel : Nat) (s : Stmt) (ss : List Stmt) :
    Run.executeEach policy fuel (s :: ss) =
      Run.execute policy fuel s >>= fun _ => Run.executeEach policy fuel ss := by
  rw [Run.executeEach, Run.discard_eq, bind_assoc]
  rfl

/-- Statement by statement, whatever their flow, is as good as until one of them returns. -/
theorem Run.executeEach_bind_eq (policy : Policy) (fuel : Nat) {scopes : List Scope}
    {ss : List Stmt} (hs : ∀ keyword, .error (.scoping keyword .topLevelReturn) ∉
      (Stmt.findingsOfAll false scopes ss).2)
    (next : Run Unit) (leave : Value → Run Unit) :
    (Run.executeEach policy fuel ss >>= fun _ => next) =
      (do
        match ← Stmt.execAll policy fuel (runBody policy fuel) ss with
        | .normal => next
        | .returned v => leave v) := by
  induction ss generalizing scopes with
  | nil => rfl
  | cons s ss ih =>
    simp only [Stmt.findingsOfAll, List.mem_append, not_or] at hs
    have hfirst := s.exec_yields_normal policy fuel (runBody policy fuel)
      fun keyword => (hs keyword).1
    have hrest := ih fun keyword => (hs keyword).2
    rw [Run.executeEach_cons, Stmt.execAll, bind_assoc, bind_assoc]
    exact hfirst.bind_eq hrest

theorem mem_errors_resolve {program : List Stmt} {d : Diagnostic} :
    d ∈ (resolve program).errors ↔ .error d ∈ (Stmt.findingsOfAll false [] program).2 := by
  rw [resolve, List.mem_filterMap]
  constructor
  · rintro ⟨f, hf, hd⟩
    cases f with
    | reference r => cases hd
    | error d' =>
      cases hd
      exact hf
  · intro h
    exact ⟨_, h, rfl⟩

/-- The findings of a program are those of its statements, each outside of all scopes. -/
theorem Stmt.mem_findingsOfAll_nil {inFunction : Bool} {f : Finding} {ss : List Stmt} :
    f ∈ (Stmt.findingsOfAll inFunction [] ss).2 ↔ ∃ s ∈ ss, f ∈ (s.findings inFunction []).2 := by
  induction ss with
  | nil => simp [Stmt.findingsOfAll]
  | cons s ss ih =>
    simp only [Stmt.findingsOfAll, Stmt.scopes_findings_nil, List.mem_append, ih,
      List.mem_cons, exists_eq_or_imp]

/-- In a program without a report of a `return` outside of functions, every statement that ends
without a fault ends normally, from whatever machine; and to run the program statement by statement,
whatever the flow of each, is to run it until one of them returns, whatever would be done then. -/
theorem flow_normal_of_no_return {program : List Stmt}
    (h : ∀ keyword, .scoping keyword .topLevelReturn ∉ (resolve program).errors)
    (policy : Policy) (fuel : Nat) :
    (∀ s ∈ program, ∀ m flow, (Run.execute policy fuel s m).1 = .ok flow → flow = .normal) ∧
    ∀ leave : Value → Run Unit,
      Run.interpret policy fuel program =
        (do
          match ← Stmt.execAll policy fuel (runBody policy fuel) program with
          | .normal => Run.flush
          | .returned v => leave v) := by
  simp only [mem_errors_resolve] at h
  refine ⟨fun s hs => ?_, Run.executeEach_bind_eq policy fuel h Run.flush⟩
  have hfindings : ∀ keyword,
      .error (.scoping keyword .topLevelReturn) ∉ (s.findings false []).2 :=
    fun keyword hmem => h keyword (Stmt.mem_findingsOfAll_nil.mpr ⟨s, hs, hmem⟩)
  exact s.exec_yields_normal policy fuel (runBody policy fuel) hfindings

/-- A function whose body returns, and a call of it. -/
def calledReturn : List Stmt :=
  let name : Token := ⟨.identifier, "f", 1⟩
  [.function name [] [.returnFrom ⟨.keyword .return_, "return", 1⟩ none],
    .expression (.call (.var 0 name) ⟨.punctuator .rightParen, ")", 1⟩ [])]

/-- The machine after the function of this program is declared. -/
def afterDeclaration : Machine :=
  (Run.executeEach .resolved 1 (calledReturn.take 1) (Machine.initial .unlimited)).2

theorem flow_normal_calledReturn :
    (resolve calledReturn).errors = [] ∧
    (∃ s ∈ calledReturn, ∃ flow,
      (Run.execute .resolved 1 s afterDeclaration).1 = .ok flow ∧ flow = .normal) ∧
    Run.interpret .resolved 1 calledReturn =
      (do
        match ← Stmt.execAll .resolved 1 (runBody .resolved 1) calledReturn with
        | .normal => Run.flush
        | .returned _ => Run.fail ⟨.keyword .return_, "return", 1⟩ .notCallable) := by
  have herrors : (resolve calledReturn).errors = [] := rfl
  have hnone : ∀ keyword, .scoping keyword .topLevelReturn ∉ (resolve calledReturn).errors := by
    rw [herrors]
    exact fun keyword => List.not_mem_nil
  obtain ⟨hnormal, hinterpret⟩ := flow_normal_of_no_return hnone .resolved 1
  have hmem : calledReturn[1] ∈ calledReturn := List.getElem_mem _
  have hrun : (Run.execute .resolved 1 calledReturn[1] afterDeclaration).1 = .ok .normal := rfl
  exact ⟨herrors, ⟨_, hmem, _, hrun, hnormal _ hmem _ _ hrun⟩, hinterpret _⟩

end TreeWalk
