import TreeWalk.Proofs.Machine.NameAgreement
import TreeWalk.Proofs.Session.States

/-! A program in which names suffice runs in the same way whether its variables are found by their
hop counts or by walking outward by name. -/

namespace TreeWalk
namespace Session

/-- Steps that define host functions. -/
def Step.IsHost : Step → Prop
  | .defineHost _ _ _ => True
  | .run _ => False

theorem accepted_of_hosts {hosts : List Step} (h : ∀ step ∈ hosts, step.IsHost) (n : NodeId) :
    accepted n hosts = [] := by
  induction hosts with
  | nil => rfl
  | cons first rest ih =>
    rw [List.forall_mem_cons] at h
    cases first with
    | run source => cases h.1
    | defineHost name arity body => exact ih h.2

/-- Defining host functions uses no identities up. -/
theorem nextId_of_hosts {hosts : List Step} (h : ∀ step ∈ hosts, step.IsHost) (policy : Policy)
    (fuel : Nat) (s : Session) : (s.stepsUnder policy fuel hosts).2.nextId = s.nextId := by
  induction hosts generalizing s with
  | nil => rfl
  | cons first rest ih =>
    rw [List.forall_mem_cons] at h
    cases first with
    | run source => cases h.1
    | defineHost name arity body => exact ih h.2 (s.defineHost name arity body)

theorem Sound.run_byName {s : Session} {c : Context} (hs : s.Sound [] c) (fuel : Nat)
    {source : String} (hnames : (Program.ofSource source s.nextId).NamesSuffice) :
    s.runUnder .byName fuel source = s.runUnder .resolved fuel source := by
  obtain ⟨p, hp⟩ : ∃ p, Program.ofSource source s.nextId = p := ⟨_, rfl⟩
  by_cases h : p.errors = []
  · have hdrawn := Program.drawn (hp ▸ h)
    have hbody := Program.hasBody (hp ▸ h)
    rw [hp] at hdrawn hbody hnames
    have hstart : (s.machine.addHops p.resolution.hops).Sound [p] c :=
      hs.machine.addHops (fun id hid => hs.hops id (hdrawn.within id hid).1)
        fun q hq => by cases hq
    have hsame := Run.interpret_same hnames fuel hbody hstart hs.scope
    cases hrun : Run.interpret .resolved fuel p.statements
        (s.machine.addHops p.resolution.hops) with
    | mk result m' =>
      rw [hrun] at hsame
      rw [runUnder_accepted hp h hsame, runUnder_accepted hp h hrun]
  · rw [runUnder_rejected hp h, runUnder_rejected hp h]

/-- In a new session with any host functions, a program in which names suffice has the same outcome,
prints the same and leaves the same values in all frames, whether every variable is read and written
at its hop count, and among the globals if it has none, or by walking outward by name from the current
frame. -/
theorem run_byName_eq (fuel : Nat) (sink : Sink) (hosts : List Step)
    (hhosts : ∀ step ∈ hosts, step.IsHost) (source : String)
    (hnames : (Program.ofSource source 0).NamesSuffice) :
    (after fuel sink hosts).runUnder .byName fuel source =
      (after fuel sink hosts).runUnder .resolved fuel source := by
  obtain ⟨c, hkeeps⟩ := (initial_sound sink).steps fuel hosts
  have hsound : (after fuel sink hosts).Sound [] c := by
    have hprograms := accepted_of_hosts hhosts (initial sink).nextId
    rw [hprograms] at hkeeps
    exact hkeeps.sound
  have hnext : (after fuel sink hosts).nextId = 0 := nextId_of_hosts hhosts .resolved fuel _
  rw [← hnext] at hnames
  exact hsound.run_byName fuel hnames

/-- A block with a variable, a function that reads the variable, and a call of the function. -/
def capturedRead : String := "\x7b var a; fun f() \x7b a; \x7d f(); \x7d"

/-- The function that is declared and called. -/
def calledName : Token := ⟨.identifier, "f", 1⟩

theorem capturedRead_tokens : Source.tokens capturedRead =
    [⟨.punctuator .leftBrace, "\x7b", 1⟩, ⟨.keyword .var_, "var", 1⟩, localName,
      ⟨.punctuator .semicolon, ";", 1⟩, ⟨.keyword .fun_, "fun", 1⟩, calledName,
      ⟨.punctuator .leftParen, "(", 1⟩, ⟨.punctuator .rightParen, ")", 1⟩,
      ⟨.punctuator .leftBrace, "\x7b", 1⟩, localName, ⟨.punctuator .semicolon, ";", 1⟩,
      ⟨.punctuator .rightBrace, "\x7d", 1⟩, calledName, ⟨.punctuator .leftParen, "(", 1⟩,
      ⟨.punctuator .rightParen, ")", 1⟩, ⟨.punctuator .semicolon, ";", 1⟩,
      ⟨.punctuator .rightBrace, "\x7d", 1⟩, Token.endMark 1] := rfl

theorem capturedRead_program : Program.ofSource capturedRead 0 =
    { statements := [.block [.declare localName none,
        .function calledName [] [.expression (.var 0 localName)],
        .expression (.call (.var 1 calledName) ⟨.punctuator .rightParen, ")", 1⟩ [])]]
      lexicalErrors := []
      syntacticErrors := []
      resolution := ⟨[⟨.read, 0, localName, some 1⟩, ⟨.read, 1, calledName, some 0⟩], []⟩
      nextId := 2 } := by
  rw [Program.ofSource, capturedRead_tokens]
  rfl

/-- The only variable inside of a function is resolved to the block that declares it. -/
theorem capturedRead_namesSuffice : (Program.ofSource capturedRead 0).NamesSuffice := by
  rw [capturedRead_program]
  constructor
  · rintro id name k ⟨inner, f, params, body, outer, e, j, region, hsite, hmention, hplace, -, -, rfl⟩
    simp only [Program.places, Stmt.placesOfAll, Stmt.places, List.cons_append, List.nil_append,
      List.mem_cons, List.not_mem_nil, Prod.mk.injEq, reduceCtorEq, and_false, or_false, false_or,
      Stmt.function.injEq] at hplace
    obtain ⟨rfl, rfl, rfl, rfl⟩ := hplace
    -- No site but the body of the function has a function around it.
    have hshort {block function : Region} : inner ++ [function, block] ≠ [block] := by
      intro heq
      have hlen := congrArg List.length heq
      simp at hlen
    simp only [Program.sites, Stmt.sitesOfAll, Stmt.sites, Expr.parts, Expr.partsOfAll,
      Expr.partsOfOption, Option.map_none, Option.getD_none, List.map_cons, List.map_nil,
      List.append_nil, List.nil_append, List.cons_append, List.mem_cons, List.not_mem_nil,
      Prod.mk.injEq, hshort, false_and, or_false, List.append_left_eq_self] at hsite
    obtain ⟨-, rfl⟩ := hsite
    cases hmention
    exact ⟨1, by omega, rfl⟩
  · intro regions t initializer hplace
    simp [Program.places, Stmt.placesOfAll, Stmt.places] at hplace

/-- The session has a host function with the name of the variable. -/
theorem run_byName_eq_capturedRead : (Program.ofSource capturedRead 0).NamesSuffice ∧
    let s := after 2 .unlimited [.defineHost "a" 0 fun _ => .failure "not called"]
    s.runUnder .byName 2 capturedRead = s.runUnder .resolved 2 capturedRead := by
  refine ⟨capturedRead_namesSuffice, run_byName_eq 2 .unlimited _ (fun step h => ?_) capturedRead
    capturedRead_namesSuffice⟩
  rw [List.mem_singleton.mp h]
  trivial

end Session

end TreeWalk
