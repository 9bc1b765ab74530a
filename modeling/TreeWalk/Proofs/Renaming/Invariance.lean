import TreeWalk.Proofs.Likeness.Execution
import TreeWalk.Proofs.Likeness.Resolution
import TreeWalk.Proofs.Renaming.Tree
import TreeWalk.Proofs.Session.States

/-! Scoping is lexical: how a local variable is spelled makes no difference. A program in which one
scope has a variable renamed is resolved to the same hop counts, and it runs in the same way. -/

namespace TreeWalk

section Program

variable {ids : List NodeId} {table : HopTable} {x y : String} {s : Stmt} {r : Region}

mutual

/-- Around the scope that is renamed nothing changes. -/
theorem Stmt.alike_replaced (hregion : s.region? = some r) (hf : ∀ t ∈ r.body, t.NotFunction x)
    {t t' : Stmt} (h : Replaced s (s.renameScope table x y) t t') (hids : ∀ id ∈ t.ids, id ∈ ids)
    (hy : y ∉ t.names) (hr : t.Regular) :
    Stmt.Alike (.respelling ids table x y) .plain t t' := by
  -- Off the path to the scope each part is like itself, for it does not have the new name.
  have hnode : ∀ id ∈ ids, ∃ d, (Likeness.respelling ids table x y).node id id d :=
    fun id hid => ⟨_, rfl, hid, rfl⟩
  have hspelled {names : List String} (hy : y ∉ names) :
      ∀ n ∈ names, (Likeness.respelling ids table x y).spelled false n n :=
    fun n hn => ⟨fun heq => hy (heq ▸ hn), by simp⟩
  have hexpr {e : Expr} (hids : ∀ id ∈ e.ids, id ∈ ids) (hy : y ∉ e.names) :
      Expr.Alike (.respelling ids table x y) .plain e e :=
    Expr.alike_self (fun _ => rfl) (hspelled hy) fun id hid => hnode id (hids id hid)
  have hstmt {u : Stmt} (hids : ∀ id ∈ u.ids, id ∈ ids) (hy : y ∉ u.names) :
      Stmt.Alike (.respelling ids table x y) .plain u u :=
    Stmt.alike_self (fun _ => rfl) (hspelled hy) fun id hid => hnode id (hids id hid)
  match h with
  | .here => exact Stmt.alike_renameScope hregion hids hy hr hf
  | .block h =>
    refine .block false ?_
    rw [Outlook.enter_plain]
    exact Stmt.allAlike_replaced hregion hf h hids hy hr
  | .ifThen h =>
    simp only [Stmt.ids, Stmt.names, List.mem_append, not_or] at hids hy
    exact .ifThen (hexpr (fun i hi => hids i (.inl hi)) hy.1)
      (Stmt.alike_replaced hregion hf h (fun i hi => hids i (.inr hi)) hy.2 hr.2)
  | .thenBranch h =>
    simp only [Stmt.ids, Stmt.names, List.mem_append, not_or] at hids hy
    exact .ifElse (hexpr (fun i hi => hids i (.inl (.inl hi))) hy.1.1)
      (Stmt.alike_replaced hregion hf h (fun i hi => hids i (.inl (.inr hi))) hy.1.2 hr.1.2)
      (hstmt (fun i hi => hids i (.inr hi)) hy.2)
  | .elseBranch h =>
    simp only [Stmt.ids, Stmt.names, List.mem_append, not_or] at hids hy
    exact .ifElse (hexpr (fun i hi => hids i (.inl (.inl hi))) hy.1.1)
      (hstmt (fun i hi => hids i (.inl (.inr hi))) hy.1.2)
      (Stmt.alike_replaced hregion hf h (fun i hi => hids i (.inr hi)) hy.2 hr.2.2)
  | .whileLoop h =>
    simp only [Stmt.ids, Stmt.names, List.mem_append, not_or] at hids hy
    exact .whileLoop (hexpr (fun i hi => hids i (.inl hi)) hy.1)
      (Stmt.alike_replaced hregion hf h (fun i hi => hids i (.inr hi)) hy.2 hr.2)
  | @Replaced.function _ _ name params body _ h =>
    simp only [Stmt.names, List.mem_append, List.mem_cons, List.mem_map, not_or] at hy
    refine .function false (Likeness.respelling_token name)
      ⟨Ne.symm hy.1.1, by simp [Outlook.plain]⟩ ?_ ?_
    · refine List.forall₂_same.mpr fun t ht => Likeness.respelling_kept fun heq => ?_
      exact hy.1.2 ⟨t, ht, heq⟩
    · rw [Outlook.enter_plain]
      exact Stmt.allAlike_replaced hregion hf h hids hy.2 hr

theorem Stmt.allAlike_replaced (hregion : s.region? = some r)
    (hf : ∀ t ∈ r.body, t.NotFunction x) {ts ts' : List Stmt}
    (h : ReplacedIn s (s.renameScope table x y) ts ts') (hids : ∀ id ∈ Stmt.idsOfAll ts, id ∈ ids)
    (hy : y ∉ Stmt.namesOfAll ts) (hr : Stmt.AllRegular ts) :
    Stmt.AllAlike (.respelling ids table x y) .plain ts ts' := by
  match h with
  | @ReplacedIn.head _ _ t t' ts h =>
    simp only [Stmt.idsOfAll, Stmt.namesOfAll, List.mem_append, not_or] at hids hy
    refine .cons (Stmt.alike_replaced hregion hf h (fun i hi => hids i (.inl hi)) hy.1 hr.1) ?_
    exact Stmt.allAlike_self (fun _ => rfl)
      (fun n hn => ⟨fun heq => hy.2 (heq ▸ hn), by simp⟩)
      fun id hid => ⟨_, rfl, hids id (.inr hid), rfl⟩
  | @ReplacedIn.tail _ _ t ts ts' h =>
    simp only [Stmt.idsOfAll, Stmt.namesOfAll, List.mem_append, not_or] at hids hy
    refine .cons ?_ (Stmt.allAlike_replaced hregion hf h (fun i hi => hids i (.inr hi)) hy.2 hr.2)
    exact Stmt.alike_self (fun _ => rfl)
      (fun n hn => ⟨fun heq => hy.1 (heq ▸ hn), by simp⟩)
      fun id hid => ⟨_, rfl, hids id (.inl hid), rfl⟩

end

/-- No two names are spelled alike, because the new name is not in the program. -/
theorem Likeness.respelling_static : (Likeness.respelling ids table x y).Static table where
  node h := ⟨h.1, h.2.2⟩
  injective := by
    rintro sort sort' n n' k k' ⟨hn, rfl⟩ ⟨hk, rfl⟩ heq
    split at heq <;> split at heq <;> simp_all
  unique h h' := h.2.trans h'.2.symm

end Program

/-- What a renaming changes in a run that starts from any machine: only frames of the second sort
are without the new name. -/
def Likeness.respellingIn (hops : HopTable) (x y : String) : Likeness where
  node id id' d := id' = id ∧ hops[id]? = d
  line := Eq
  spelled sort n n' := if sort then n ≠ y ∧ n' = (if n = x then y else n) else n' = n

section Machine

variable {hops : HopTable} {x y : String}

theorem Likeness.respellingIn_faithful : (Likeness.respellingIn hops x y).Faithful := by
  intro sort n n' k k' hn hk
  cases sort with
  | false =>
    obtain rfl : n' = n := hn
    obtain rfl : k' = k := hk
    exact Iff.rfl
  | true =>
    obtain ⟨hn, rfl⟩ : n ≠ y ∧ n' = if n = x then y else n := hn
    obtain ⟨hk, rfl⟩ : k ≠ y ∧ k' = if k = x then y else k := hk
    grind

theorem Likeness.respelling_le {ids : List NodeId} {table : HopTable}
    (h : ∀ id ∈ ids, hops[id]? = table[id]?) :
    (Likeness.respelling ids table x y).Le (.respellingIn hops x y) where
  node hid := ⟨hid.1, (h _ hid.2.1).trans hid.2.2⟩
  line heq := heq
  spelled {sort n n'} hn := by
    obtain ⟨hy, rfl⟩ := hn
    cases sort with
    | false => simp [respellingIn]
    | true => simpa [respellingIn] using hy

theorem Machine.Grounded.alike_respellingIn {m : Machine} (h : m.Grounded) :
    ({ m with hops } : Machine).Alike (.respellingIn hops x y) (fun _ => false)
      { m with hops } := by
  refine h.alike (fun _ => rfl) (fun {n n'} => ?_) (fun hid => ?_) fun _ id _ => ⟨_, rfl, rfl⟩
  · simp [Likeness.respellingIn, eq_comm]
  · obtain ⟨rfl, hd⟩ := hid
    exact ⟨hd, hd⟩

end Machine

/-- Failures that are the same, except that an undefined variable `x` may be called `y` instead. -/
inductive Diagnostic.Respelled (x y : String) : Diagnostic → Diagnostic → Prop where
  | same {d} : Diagnostic.Respelled x y d d
  | undefined {t : Token} : t.lexeme = x →
      Diagnostic.Respelled x y (Store.undefined t) (Store.undefined { t with lexeme := y })

/-- Results that are the same, except that an undefined variable `x` may be called `y` instead. -/
inductive Fault.Respelled (x y : String) : Except Fault Unit → Except Fault Unit → Prop where
  | ok : Fault.Respelled x y (.ok ()) (.ok ())
  | failure {d d'} : Diagnostic.Respelled x y d d' →
      Fault.Respelled x y (.error (.failure d)) (.error (.failure d'))
  | exhausted : Fault.Respelled x y (.error .exhausted) (.error .exhausted)

section Results

variable {hops : HopTable} {x y : String}

theorem Likeness.Failure.respelled {d d' : Diagnostic}
    (h : (Likeness.respellingIn hops x y).Failure d d') : Diagnostic.Respelled x y d d' := by
  cases h with
  | @runtime t t' cause ht =>
    obtain ⟨kind, lexeme, line⟩ := t
    obtain ⟨kind', lexeme', line'⟩ := t'
    obtain rfl : kind = kind' := ht.kind
    obtain rfl : lexeme = lexeme' := ht.lexeme
    obtain rfl : line = line' := ht.line
    exact .same
  | sink => exact .same
  | @undefined t t' sort ht =>
    obtain ⟨kind, lexeme, line⟩ := t
    obtain ⟨kind', lexeme', line'⟩ := t'
    obtain rfl : kind = kind' := ht.kind
    obtain rfl : line = line' := ht.line
    have hspelled := ht.spelled
    cases sort with
    | false =>
      obtain rfl : lexeme' = lexeme := hspelled
      exact .same
    | true =>
      obtain ⟨-, rfl⟩ : lexeme ≠ y ∧ lexeme' = if lexeme = x then y else lexeme := hspelled
      by_cases hx : lexeme = x
      · rw [if_pos hx]
        exact .undefined hx
      · rw [if_neg hx]
        exact .same

theorem Likeness.Ends.respelled {q : Unit → Unit → Prop} {result result' : Except Fault Unit}
    (h : (Likeness.respellingIn hops x y).Ends q result result') :
    Fault.Respelled x y result result' := by
  cases h with
  | ok => exact .ok
  | failure hd => exact .failure hd.respelled
  | exhausted => exact .exhausted

end Results

namespace Session

/-- In any state that a session gets into, take a program without errors and rename a variable that
one scope of it declares, and declares as no function, to a name that does not occur in it. The
program is still without errors and has the same hop counts. With whatever fuel it runs, it prints
the same, and it ends in the same way, except that the renamed variable has its new name in a report
that it is undefined. -/
theorem rename_invariant (fuel₀ : Nat) (sink : Sink) (steps : List Step) (tokens : List Token)
    {x y : String} {program program' : List Stmt} {n' : NodeId} {s : Stmt} {r : Region}
    (hparsed : parseProgram tokens (after fuel₀ sink steps).nextId = ⟨program, [], n'⟩)
    (hresolved : (resolve program).errors = []) (hregion : s.region? = some r)
    (hvariable : ∀ t ∈ r.body, t.NotFunction x) (hy : y ∉ Stmt.namesOfAll program)
    (hrenamed : Stmt.ReplacedIn s (s.renameScope (resolve program).hops x y) program program') :
    (resolve program').errors = [] ∧ (resolve program').hops = (resolve program).hops ∧
      ∀ fuel, ∃ result result' m m',
        Run.interpret .resolved fuel program
          ((after fuel₀ sink steps).machine.addHops (resolve program).hops) = (result, m) ∧
        Run.interpret .resolved fuel program'
          ((after fuel₀ sink steps).machine.addHops (resolve program').hops) = (result', m') ∧
        m.sink = m'.sink ∧ Fault.Respelled x y result result' := by
  have hwell := wellFormed_after fuel₀ sink steps
  generalize after fuel₀ sink steps = session at *
  obtain ⟨ts, hderived⟩ : ∃ ts, Grammar.Declarations .nearest session.nextId ts program n' := by
    have hclean : (parseProgram tokens session.nextId).errors = [] := by rw [hparsed]
    have hderived := parseProgram_derived hclean
    rwa [hparsed] at hderived
  have hdrawn := hderived.drawn
  have halike : Stmt.AllAlike (.respelling (Stmt.idsOfAll program) (resolve program).hops x y)
      .plain program program' :=
    Stmt.allAlike_replaced hregion hvariable hrenamed (fun _ hid => hid) hy hderived.regular
  -- The resolver: every reference is recorded, and the renaming keeps what is recorded.
  obtain ⟨herrors, hhops⟩ := resolve_alike Likeness.respelling_static halike
    fun r hr => resolve_hops hdrawn.nodup hr
  refine ⟨herrors.mp hresolved, hhops.symm, fun fuel => ?_⟩
  -- The machine: what it knows of other programs does not touch the identities of this one.
  have hown : ∀ id ∈ Stmt.idsOfAll program,
      (session.machine.hops ∪ (resolve program).hops)[id]? = (resolve program).hops[id]? := by
    intro id hid
    have hfree := hwell.hops id (hdrawn.within id hid).1
    rw [Std.TreeMap.getElem?_union, hfree, Option.or_none]
  have hlockstep := Run.interpret_lockstep Likeness.respellingIn_faithful fuel
    (halike.mono (Likeness.respelling_le hown)) hwell.machine.alike_respellingIn
    Outlook.plain_fits
  obtain ⟨hrun, hrun', -, -, hend, hends⟩ := hlockstep
  exact ⟨_, _, _, _, hrun, hhops ▸ hrun', hend.sink, hends.respelled⟩

/-- A function whose parameter is read by a function inside it. -/
def capturedParameter : List Stmt :=
  let word (lexeme : String) : Token := ⟨.identifier, lexeme, 1⟩
  let keyword : Token := ⟨.keyword .return_, "return", 1⟩
  [.function (word "f") [word "a"]
    [.function (word "g") [] [.returnFrom keyword (some (.var 0 (word "a")))],
      .returnFrom keyword (some (.var 1 (word "g")))]]

def capturedParameterTokens : List Token :=
  let word (lexeme : String) : Token := ⟨.identifier, lexeme, 1⟩
  let mark (p : Punctuator) : Token := ⟨.punctuator p, "", 1⟩
  let fun_ : Token := ⟨.keyword .fun_, "fun", 1⟩
  let keyword : Token := ⟨.keyword .return_, "return", 1⟩
  [fun_, word "f", mark .leftParen, word "a", mark .rightParen, mark .leftBrace,
    fun_, word "g", mark .leftParen, mark .rightParen, mark .leftBrace,
    keyword, word "a", mark .semicolon, mark .rightBrace,
    keyword, word "g", mark .semicolon, mark .rightBrace]

theorem rename_invariant_capturedParameter :
    parseProgram capturedParameterTokens 0 = ⟨capturedParameter, [], 2⟩ ∧
      (resolve capturedParameter).errors = [] ∧ "b" ∉ Stmt.namesOfAll capturedParameter ∧
        ∃ program', Stmt.namesOfAll program' = ["f", "b", "g", "b", "g"] ∧
          (resolve program').errors = [] ∧
            (resolve program').hops = (resolve capturedParameter).hops := by
  have hparsed : parseProgram capturedParameterTokens 0 = ⟨capturedParameter, [], 2⟩ := rfl
  have hresolved : (resolve capturedParameter).errors = [] := rfl
  have hy : "b" ∉ Stmt.namesOfAll capturedParameter := by decide
  obtain ⟨s, hs⟩ : ∃ s, capturedParameter = [s] := ⟨_, rfl⟩
  obtain ⟨r, hregion⟩ : ∃ r, s.region? = some r := by
    cases hs
    exact ⟨_, rfl⟩
  have hvariable : ∀ t ∈ r.body, t.NotFunction "a" := by
    cases hs
    cases hregion
    intro t ht name params body hfunction
    simp only [List.mem_cons, List.not_mem_nil, or_false] at ht
    rcases ht with rfl | rfl
    · cases hfunction
      decide
    · cases hfunction
  have hrenamed : Stmt.ReplacedIn s
      (s.renameScope (resolve capturedParameter).hops "a" "b") capturedParameter
        [s.renameScope (resolve capturedParameter).hops "a" "b"] := by
    rw [hs]
    exact .head .here
  obtain ⟨herrors, hhops, -⟩ :=
    rename_invariant 0 .unlimited [] _ hparsed hresolved hregion hvariable hy hrenamed
  refine ⟨hparsed, hresolved, hy, _, ?_, herrors, hhops⟩
  cases hs
  decide

end Session

end TreeWalk
