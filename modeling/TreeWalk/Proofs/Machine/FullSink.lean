import TreeWalk.Proofs.Machine.Printing

/-! Printing to a sink that gets full. A run with little room is the run with room for everything,
cut short at the text that does not fit. -/

namespace TreeWalk

theorem extract_of_size_le {bytes : ByteArray} {n : Nat} (h : bytes.size ≤ n) :
    bytes.extract 0 n = bytes := by
  rw [← Nat.max_eq_left h]
  exact ByteArray.extract_zero_max_size

namespace Sink

/-- The sink after more bytes, however much room there was. -/
def wrote (bytes : ByteArray) (s : Sink) : Sink :=
  { s with written := s.written ++ bytes }

theorem wrote_empty (s : Sink) : s.wrote ByteArray.empty = s := by
  rw [wrote, ByteArray.append_empty]

theorem wrote_wrote (bytes bytes' : ByteArray) (s : Sink) :
    (s.wrote bytes).wrote bytes' = s.wrote (bytes ++ bytes') := by
  simp only [wrote, ByteArray.append_assoc]

end Sink

namespace Machine

/-- The machine with other room in its sink. -/
def withRoom (room : Option Nat) (m : Machine) : Machine :=
  { m with sink := { m.sink with room } }

/-- The machine `m₁` as a run from the machine `m` leaves it that has filled up the sink with the
given bytes: in its frames as they are, and back where the run started. -/
def cutShort (m : Machine) (bytes : ByteArray) (m₁ : Machine) : Machine :=
  { m₁ with
    scope := m.scope
    sink := { m.sink with written := m.sink.written ++ bytes, room := some 0 } }

end Machine

/-- In the machine `m₁` the text comes to be printed that the first `n` bytes leave off in. -/
inductive Prints.ExceedsAt (prints : Prints) (m : Machine) (bytes : ByteArray) (n : Nat)
    (m₁ : Machine) : Prop where
  | intro (before after : ByteArray) (text : String) (comes : prints m text m₁)
    (sink : m₁.sink = m.sink.wrote before) (split : bytes = before ++ text.toUTF8 ++ after)
    (le : before.size ≤ n) (lt : n < before.size + text.toUTF8.size)

/-- From a machine with room for everything, an action prints the given bytes. With less room it
does the same as long as they fit, and otherwise stops at the text that does not fit. -/
structure FillsFrom {α : Type} (prints : Prints) (r : Run α) (m : Machine) (bytes : ByteArray) :
    Prop where
  sink : (r m).2.sink = m.sink.wrote bytes
  scope : (r m).2.scope = m.scope
  fits : ∀ n, bytes.size ≤ n → r (m.withRoom (some n)) =
    ((r m).1, (r m).2.withRoom (some (n - bytes.size)))
  full : ∀ n, n < bytes.size → ∃ m₁, prints.ExceedsAt m bytes n m₁ ∧
    r (m.withRoom (some n)) =
      (.error (.failure (.sink .full)), m.cutShort (bytes.extract 0 n) m₁)

def Fills {α : Type} (prints : Prints) (r : Run α) : Prop :=
  ∀ m : Machine, m.sink.room = none → ∃ bytes, FillsFrom prints r m bytes

variable {α β : Type} {p : Prints} {r : Run α}

theorem Prints.ExceedsAt.mono {p' : Prints} {m m₁ : Machine} {bytes : ByteArray} {n : Nat}
    (h : p.ExceedsAt m bytes n m₁) (hp : ∀ text, p m text m₁ → p' m text m₁) :
    p'.ExceedsAt m bytes n m₁ := by
  obtain ⟨before, after, text, comes, sink, split, le, lt⟩ := h
  exact ⟨before, after, text, hp text comes, sink, split, le, lt⟩

/-- More may be printed afterwards. -/
theorem Prints.ExceedsAt.append {m m₁ : Machine} {bytes : ByteArray} {n : Nat}
    (h : p.ExceedsAt m bytes n m₁) (bytes' : ByteArray) :
    p.ExceedsAt m (bytes ++ bytes') n m₁ := by
  obtain ⟨before, after, text, comes, sink, rfl, le, lt⟩ := h
  exact ⟨before, after ++ bytes', text, comes, sink, by rw [ByteArray.append_assoc], le, lt⟩

/-- Something may have been printed before. -/
theorem Prints.ExceedsAt.prepend {m m' m₁ : Machine} {bytes bytes' : ByteArray} {n : Nat}
    (hsink : m'.sink = m.sink.wrote bytes) (h : p.ExceedsAt m' bytes' (n - bytes.size) m₁)
    (hle : bytes.size ≤ n) {p' : Prints} (hp : ∀ text, p m' text m₁ → p' m text m₁) :
    p'.ExceedsAt m (bytes ++ bytes') n m₁ := by
  obtain ⟨before, after, text, comes, sink, rfl, le, lt⟩ := h
  refine ⟨bytes ++ before, after, text, hp text comes, ?_, ?_, ?_, ?_⟩
  · rw [sink, hsink, Sink.wrote_wrote]
  · simp only [ByteArray.append_assoc]
  · rw [ByteArray.size_append]
    omega
  · rw [ByteArray.size_append]
    omega

namespace Fills

/-- Actions that neither look at the sink nor change it. -/
theorem of_quiet (hr : ∀ m : Machine, (r m).2.sink = m.sink ∧ (r m).2.scope = m.scope)
    (hroom : ∀ (m : Machine) room, r (m.withRoom room) = ((r m).1, (r m).2.withRoom room)) :
    Fills p r := by
  refine fun m _ => ⟨ByteArray.empty, ?_, (hr m).2, fun n _ => hroom m (some n), fun n hn => ?_⟩
  · rw [(hr m).1, Sink.wrote_empty]
  · rw [ByteArray.size_empty] at hn
    exact absurd hn (Nat.not_lt_zero n)

theorem pure (a : α) : Fills p (pure a) :=
  of_quiet (fun _ => ⟨rfl, rfl⟩) fun _ _ => rfl

theorem throw (fault : Fault) : Fills p (throw fault : Run α) :=
  of_quiet (fun _ => ⟨rfl, rfl⟩) fun _ _ => rfl

theorem fail (token : Token) (cause : RuntimeCause) : Fills p (Run.fail token cause : Run α) :=
  throw _

theorem bind {f : α → Run β} {q : α → Prints} (hr : Fills p r) (hf : ∀ a, Fills (q a) (f a)) :
    Fills (p.andThen r q) (r >>= f) := by
  intro m hm
  obtain ⟨bytes, hsink, hscope, hfits, hfull⟩ := hr m hm
  have hfirst {m₁ : Machine} (text : String) : p m text m₁ → p.andThen r q m text m₁ := Or.inl
  cases hrun : r m with
  | mk result m' =>
    rw [hrun] at hsink hscope hfits
    dsimp only at hsink hscope hfits
    cases result with
    | error fault =>
      -- The second action never runs, so what is written is what the first one writes.
      have hall : (r >>= f) m = (.error fault, m') := by rw [Run.bind_apply, hrun]
      refine ⟨bytes, ?_, ?_, fun n hn => ?_, fun n hn => ?_⟩
      · rw [hall, hsink]
      · rw [hall, hscope]
      · rw [hall, Run.bind_apply, hfits n hn]
      · obtain ⟨m₁, hexceeds, hcut⟩ := hfull n hn
        exact ⟨m₁, hexceeds.mono hfirst, by rw [Run.bind_apply, hcut]⟩
    | ok a =>
      have hroom : m'.sink.room = none := by rw [hsink, Sink.wrote, hm]
      obtain ⟨bytes', hsink', hscope', hfits', hfull'⟩ := hf a m' hroom
      have hall : (r >>= f) m = f a m' := by rw [Run.bind_apply, hrun]
      have hnext {m₁ : Machine} (text : String) :
          q a m' text m₁ → p.andThen r q m text m₁ := fun h => Or.inr ⟨a, m', hrun, h⟩
      refine ⟨bytes ++ bytes', ?_, ?_, fun n hn => ?_, fun n hn => ?_⟩
      · rw [hall, hsink', hsink, Sink.wrote_wrote]
      · rw [hall, hscope', hscope]
      · rw [ByteArray.size_append] at hn
        rw [hall, Run.bind_apply, hfits n (by omega)]
        dsimp only
        rw [hfits' _ (by omega), ByteArray.size_append, Nat.sub_sub]
      · rw [ByteArray.size_append] at hn
        by_cases hlt : n < bytes.size
        · -- It is the first action that does not fit.
          obtain ⟨m₁, hexceeds, hcut⟩ := hfull n hlt
          have hextract : (bytes ++ bytes').extract 0 n = bytes.extract 0 n := by
            rw [ByteArray.extract_append, Nat.zero_sub, Nat.sub_eq_zero_of_le (Nat.le_of_lt hlt),
              ByteArray.extract_same, ByteArray.append_empty]
          refine ⟨m₁, (hexceeds.mono hfirst).append bytes', ?_⟩
          rw [Run.bind_apply, hcut, hextract]
        · -- The first action fits and leaves the rest of the room to the second.
          have hle : bytes.size ≤ n := Nat.le_of_not_lt hlt
          obtain ⟨m₁, hexceeds, hcut⟩ := hfull' (n - bytes.size) (by omega)
          have hextract : (bytes ++ bytes').extract 0 n =
              bytes ++ bytes'.extract 0 (n - bytes.size) := by
            rw [ByteArray.extract_append, Nat.zero_sub, extract_of_size_le hle]
          refine ⟨m₁, hexceeds.prepend hsink hle hnext, ?_⟩
          rw [Run.bind_apply, hfits n hle]
          dsimp only
          rw [hcut, hextract]
          simp only [Machine.cutShort, hscope, hsink, Sink.wrote, ByteArray.append_assoc]

theorem mono {p' : Prints} (h : Fills p r) (hp : ∀ m text m₁, p m text m₁ → p' m text m₁) :
    Fills p' r := by
  intro m hm
  obtain ⟨bytes, hsink, hscope, hfits, hfull⟩ := h m hm
  refine ⟨bytes, hsink, hscope, hfits, fun n hn => ?_⟩
  obtain ⟨m₁, hexceeds, hcut⟩ := hfull n hn
  exact ⟨m₁, hexceeds.mono fun text => hp m text m₁, hcut⟩

/-- Nothing is printed after the first action. -/
theorem bind_quietly {f : α → Run β} (hr : Fills p r) (hf : ∀ a, Fills .nothing (f a)) :
    Fills p (r >>= f) := by
  refine (hr.bind hf).mono fun m text m₁ h => ?_
  rcases h with h | ⟨a, m', -, h⟩
  · exact h
  · exact absurd h not_false

theorem discard (hr : Fills p r) : Fills p (discard r) := by
  rw [Run.discard_eq]
  exact hr.bind_quietly fun _ => pure ()

theorem ite {c : Prop} [Decidable c] {p' : Prints} {r' : Run α} (hr : Fills p r)
    (hr' : Fills p' r') : Fills (if c then p else p') (if c then r else r') := by
  split
  · exact hr
  · exact hr'

/-- A text that does not fit is written as far as it fits. -/
theorem print (text : String) : Fills (.only text) (Run.print text) := by
  intro m hm
  have hall : Run.print text m = (.ok (), { m with sink := m.sink.wrote text.toUTF8 }) := by
    simp only [Run.print, Sink.write, hm, Sink.wrote]
  refine ⟨text.toUTF8, ?_, ?_, fun n hn => ?_, fun n hn => ?_⟩
  · rw [hall]
  · rw [hall]
  · rw [hall]
    simp only [Run.print, Sink.write, Machine.withRoom, if_pos hn, Sink.wrote]
  · refine ⟨m, ⟨ByteArray.empty, ByteArray.empty, text, ⟨rfl, rfl⟩, ?_, ?_, Nat.zero_le n, ?_⟩, ?_⟩
    · rw [Sink.wrote_empty]
    · rw [ByteArray.empty_append, ByteArray.append_empty]
    · rwa [ByteArray.size_empty, Nat.zero_add]
    · simp only [Run.print, Sink.write, Machine.withRoom, if_neg (Nat.not_le_of_lt hn),
        Machine.cutShort]

theorem flush : Fills p Run.flush := by
  have hflush (m : Machine) : Run.flush m =
      (m.sink.flush.mapError fun cause => .failure (.sink cause), m) := by
    simp only [Run.flush, Run.bind_apply, Run.get_apply]
    cases m.sink.flush <;> rfl
  refine of_quiet (fun m => ?_) fun m room => ?_
  · rw [hflush]
    exact ⟨rfl, rfl⟩
  · rw [hflush, hflush]
    rfl

theorem inNewFrame {bindings : Bindings} {enclosing : FrameId} (h : Fills p r) :
    Fills (p.inNewFrame bindings enclosing) (Run.inNewFrame bindings enclosing r) := by
  intro m hm
  obtain ⟨bytes, hsink, hscope, hfits, hfull⟩ := h (m.opened bindings enclosing) hm
  refine ⟨bytes, hsink, rfl, fun n hn => ?_, fun n hn => ?_⟩
  · have hrun := hfits n hn
    rw [Run.inNewFrame_apply]
    change ((r ((m.opened bindings enclosing).withRoom (some n))).1,
      ({ (r ((m.opened bindings enclosing).withRoom (some n))).2 with
        scope := m.scope } : Machine)) = _
    rw [hrun]
    rfl
  · obtain ⟨m₁, hexceeds, hcut⟩ := hfull n hn
    obtain ⟨before, after, text, comes, sink, split, le, lt⟩ := hexceeds
    refine ⟨m₁, ⟨before, after, text, comes, sink, split, le, lt⟩, ?_⟩
    change ((r ((m.opened bindings enclosing).withRoom (some n))).1,
      ({ (r ((m.opened bindings enclosing).withRoom (some n))).2 with
        scope := m.scope } : Machine)) = _
    rw [hcut]
    rfl

/-- An action that depends on which frame is current. -/
theorem of_scope {p : FrameId → Prints} {f : FrameId → Run α}
    (h : ∀ scope, Fills (p scope) (f scope)) :
    Fills (fun m => p m.scope m) (get >>= fun m => f m.scope) := by
  intro m hm
  obtain ⟨bytes, hsink, hscope, hfits, hfull⟩ := h m.scope m hm
  refine ⟨bytes, hsink, hscope, hfits, fun n hn => ?_⟩
  obtain ⟨m₁, ⟨before, after, text, comes, sink, split, le, lt⟩, hcut⟩ := hfull n hn
  exact ⟨m₁, ⟨before, after, text, comes, sink, split, le, lt⟩, hcut⟩

/-- By induction on the rounds. -/
theorem iterate {step : Run (Option Flow)} (h : Fills p step) (limit : Nat) :
    Fills (p.iterate step limit) (Run.iterate step limit) := by
  induction limit with
  | zero => exact throw .exhausted
  | succ limit ih =>
    rw [Run.iterate_succ]
    refine h.bind fun o => ?_
    cases o with
    | none => exact pure _
    | some flow =>
      cases flow with
      | normal => exact ih
      | returned v => exact pure _

theorem ofOperation (token : Token) (operation : Operation) :
    Fills p (Run.ofOperation token operation) := by
  cases operation with
  | error cause => exact fail token cause
  | ok v => exact pure v

theorem read (id : NodeId) (name : Token) : Fills p (Policy.resolved.read id name) := by
  refine of_quiet (fun m => ?_) fun m room => ?_
  · rw [m.resolved_read]
    exact ⟨rfl, rfl⟩
  · rw [(m.withRoom room).resolved_read, m.resolved_read]
    rfl

theorem write (id : NodeId) (name : Token) (v : Value) :
    Fills p (Policy.resolved.write id name v) := by
  refine of_quiet (fun m => ?_) fun m room => ?_
  · rw [m.resolved_write, Run.onStore_apply]
    exact ⟨rfl, rfl⟩
  · rw [(m.withRoom room).resolved_write, m.resolved_write, Run.onStore_apply, Run.onStore_apply]
    rfl

theorem define (name : Token) (v : Value) : Fills p (Run.define name v) :=
  of_quiet (fun _ => ⟨rfl, rfl⟩) fun _ _ => rfl

theorem makeClosure (name : Token) (params : List Token) (body : List Stmt) :
    Fills p (Run.makeClosure name params body) :=
  of_quiet (fun _ => ⟨rfl, rfl⟩) fun _ _ => rfl

theorem makeHost (name : String) (arity : Nat) (body : HostBody) :
    Fills p (Run.makeHost name arity body) :=
  of_quiet (fun _ => ⟨rfl, rfl⟩) fun _ _ => rfl

end Fills

section Evaluation

variable {run : Region → Run Flow} {inside : Region → Prints}

theorem Value.call_fills (hrun : ∀ region, Fills (inside region) (run region)) (paren : Token)
    (arguments : List Value) (f : Value) :
    Fills (f.prints inside arguments) (f.call run paren arguments) := by
  cases f with
  | literal l => exact .fail paren .notCallable
  | closure f =>
    refine .ite (.fail paren _) ?_
    exact (hrun ⟨f.params, f.body⟩).inNewFrame.bind_quietly fun flow => .pure flow.result
  | host f =>
    simp only [Value.call]
    split
    · exact .fail paren _
    · cases f.body (arguments.map Value.view) with
      | failure message => exact .fail paren _
      | literal l => exact .pure _
      | argument i => exact .pure _
      | function name arity body => exact .makeHost name arity body

mutual

theorem Expr.eval_fills (hrun : ∀ region, Fills (inside region) (run region)) (e : Expr) :
    Fills (e.prints run inside) (e.eval .resolved run) := by
  match e with
  | .literal value => exact .pure _
  | .grouping inner => exact inner.eval_fills hrun
  | .unary operator right =>
    exact (right.eval_fills hrun).bind_quietly fun v => .ofOperation operator _
  | .binary left operator right =>
    exact (left.eval_fills hrun).bind fun v =>
      (right.eval_fills hrun).bind_quietly fun w => .ofOperation operator _
  | .logical left operator right =>
    exact (left.eval_fills hrun).bind fun v => .ite (.pure v) (right.eval_fills hrun)
  | .var id name => exact .read id name
  | .assign id name value =>
    exact (value.eval_fills hrun).bind_quietly fun v =>
      (Fills.write id name v).bind_quietly fun _ => .pure v
  | .call callee paren arguments =>
    exact (callee.eval_fills hrun).bind fun f =>
      (Expr.evalAll_fills hrun arguments).bind fun vs => f.call_fills hrun paren vs

theorem Expr.evalAll_fills (hrun : ∀ region, Fills (inside region) (run region))
    (es : List Expr) : Fills (Expr.printsAll run inside es) (Expr.evalAll .resolved run es) := by
  match es with
  | [] => exact .pure _
  | e :: es =>
    exact (e.eval_fills hrun).bind fun v =>
      (Expr.evalAll_fills hrun es).bind_quietly fun vs => .pure (v :: vs)

end

theorem Expr.evalOption_fills (hrun : ∀ region, Fills (inside region) (run region))
    (e : Option Expr) :
    Fills (Expr.printsOption run inside e) (Expr.evalOption .resolved run e) := by
  cases e with
  | none => exact .pure _
  | some e => exact e.eval_fills hrun

end Evaluation

section Execution

variable {run : Region → Run Flow} {inside : Region → Prints}

mutual

theorem Stmt.exec_fills (hrun : ∀ region, Fills (inside region) (run region)) (limit : Nat)
    (s : Stmt) : Fills (s.prints run inside limit) (s.exec .resolved limit run) := by
  match s with
  | .expression e => exact (e.eval_fills hrun).discard.bind_quietly fun _ => .pure Flow.normal
  | .print e =>
    exact (e.eval_fills hrun).bind fun v =>
      (Fills.print (v.text ++ "\n")).bind_quietly fun _ => .pure Flow.normal
  | .declare name initializer =>
    exact (Expr.evalOption_fills hrun initializer).bind_quietly fun v =>
      (Fills.define name v).bind_quietly fun _ => .pure Flow.normal
  | .block body =>
    have hbody (scope : FrameId) :
        Fills ((Stmt.printsAll run inside limit body).inNewFrame [] scope)
          (Run.inNewFrame [] scope (Stmt.execAll .resolved limit run body)) :=
      (Stmt.execAll_fills hrun limit body).inNewFrame
    exact .of_scope hbody
  | .ifThen condition thenBranch =>
    exact (condition.eval_fills hrun).bind fun v =>
      .ite (thenBranch.exec_fills hrun limit) (.pure Flow.normal)
  | .ifElse condition thenBranch elseBranch =>
    exact (condition.eval_fills hrun).bind fun v =>
      .ite (thenBranch.exec_fills hrun limit) (elseBranch.exec_fills hrun limit)
  | .whileLoop condition body =>
    refine Fills.iterate ?_ limit
    exact (condition.eval_fills hrun).bind fun v =>
      .ite ((body.exec_fills hrun limit).bind_quietly fun flow => .pure (some flow)) (.pure none)
  | .function name params body =>
    exact (Fills.makeClosure name params body).bind_quietly fun v =>
      (Fills.define name v).bind_quietly fun _ => .pure Flow.normal
  | .returnFrom keyword value =>
    exact (Expr.evalOption_fills hrun value).bind_quietly fun v => .pure (Flow.returned v)

theorem Stmt.execAll_fills (hrun : ∀ region, Fills (inside region) (run region)) (limit : Nat)
    (ss : List Stmt) :
    Fills (Stmt.printsAll run inside limit ss) (Stmt.execAll .resolved limit run ss) := by
  match ss with
  | [] => exact .pure Flow.normal
  | s :: ss =>
    refine (s.exec_fills hrun limit).bind fun flow => ?_
    cases flow with
    | normal => exact Stmt.execAll_fills hrun limit ss
    | returned v => exact .pure (Flow.returned v)

end

/-- By induction on the fuel, which calls inside calls use up. -/
theorem runBody_fills (fuel : Nat) (region : Region) :
    Fills (bodyPrints fuel region) (runBody .resolved fuel region) := by
  induction fuel generalizing region with
  | zero => exact .throw .exhausted
  | succ fuel ih => exact Stmt.execAll_fills ih fuel region.body

theorem Run.executeEach_fills (fuel : Nat) (ss : List Stmt) :
    Fills (Run.eachPrints fuel ss) (Run.executeEach .resolved fuel ss) := by
  induction ss with
  | nil => exact .pure ()
  | cons s ss ih => exact (s.exec_fills (runBody_fills fuel) fuel).discard.bind fun _ => ih

theorem Run.interpret_fills (fuel : Nat) (program : List Stmt) :
    Fills (Run.eachPrints fuel program) (Run.interpret .resolved fuel program) :=
  (Run.executeEach_fills fuel program).bind_quietly fun _ => .flush

end Execution

/-- A run with room for `n` bytes ends and prints as the run with room for everything, if that
prints no more. Otherwise it fails in the machine in which that run comes to print the text that
the first `n` bytes leave off in, with these printed and nothing else done. -/
theorem Run.interpret_fullSink (fuel : Nat) (program : List Stmt) (m : Machine) :
    ∃ bytes, (Run.interpret .resolved fuel program (m.withRoom none)).2.sink =
        (m.withRoom none).sink.wrote bytes ∧
      ∀ n, (bytes.size ≤ n ∧ Run.interpret .resolved fuel program (m.withRoom (some n)) =
          ((Run.interpret .resolved fuel program (m.withRoom none)).1,
            (Run.interpret .resolved fuel program (m.withRoom none)).2.withRoom
              (some (n - bytes.size)))) ∨
        (n < bytes.size ∧ ∃ m₁,
          (Run.eachPrints fuel program).ExceedsAt (m.withRoom none) bytes n m₁ ∧
            Run.interpret .resolved fuel program (m.withRoom (some n)) =
              (.error (.failure (.sink .full)), m.cutShort (bytes.extract 0 n) m₁)) := by
  obtain ⟨bytes, hsink, -, hfits, hfull⟩ := Run.interpret_fills fuel program (m.withRoom none) rfl
  refine ⟨bytes, hsink, fun n => ?_⟩
  by_cases hn : bytes.size ≤ n
  · exact Or.inl ⟨hn, hfits n hn⟩
  · exact Or.inr ⟨Nat.lt_of_not_le hn, hfull n (Nat.lt_of_not_le hn)⟩

end TreeWalk
