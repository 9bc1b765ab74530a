import TreeWalk.Proofs.Syntax.Shift
import TreeWalk.Resolution

/-! Resolving does not depend on where lines and identities start: a program further down has the
same hop counts, under identities further down. -/

namespace TreeWalk

namespace Shift

variable (σ : Shift)

def reference (r : Reference) : Reference :=
  ⟨r.access, σ.node r.id, σ.token r.name, r.hops⟩

def finding : Finding → Finding
  | .reference r => .reference (σ.reference r)
  | .error d => .error (σ.diagnostic d)

end Shift

variable {σ : Shift}

namespace Expr

mutual

theorem findings_shift (scopes : List Scope) (e : Expr) :
    (e.map σ.node σ.token).findings scopes = (e.findings scopes).map σ.finding := by
  match e with
  | literal _ => rfl
  | grouping inner => exact inner.findings_shift scopes
  | unary _ right => exact right.findings_shift scopes
  | binary left _ right | logical left _ right =>
    rw [map, findings, findings, left.findings_shift, right.findings_shift, List.map_append]
  | var id name =>
    have hname : (σ.token name).lexeme = name.lexeme := rfl
    rw [map, findings, findings, hname]
    split <;> rfl
  | assign id name value =>
    rw [map, findings, findings, value.findings_shift, List.map_append]
    rfl
  | call callee _ arguments =>
    rw [map, findings, findings, callee.findings_shift, findingsOfAll_shift scopes arguments,
      List.map_append]

theorem findingsOfAll_shift (scopes : List Scope) (es : List Expr) :
    findingsOfAll scopes (mapAll σ.node σ.token es) = (findingsOfAll scopes es).map σ.finding := by
  match es with
  | [] => rfl
  | e :: es =>
    rw [mapAll, findingsOfAll, findingsOfAll, e.findings_shift, findingsOfAll_shift scopes es,
      List.map_append]

end

end Expr

namespace Stmt

theorem findingsOfOption_shift (scopes : List Scope) (e : Option Expr) :
    findingsOfOption scopes (e.map (Expr.map σ.node σ.token)) =
      (findingsOfOption scopes e).map σ.finding := by
  cases e with
  | none => rfl
  | some e => exact e.findings_shift scopes

mutual

/-- The scopes after a statement depend only on how names are spelled. -/
theorem findings_shift (inFunction : Bool) (scopes : List Scope) (s : Stmt) :
    (s.map σ.node σ.token).findings inFunction scopes =
      ((s.findings inFunction scopes).1, (s.findings inFunction scopes).2.map σ.finding) := by
  match s with
  | expression e | print e => rw [map, findings, findings, e.findings_shift]
  | declare name initializer =>
    rw [map, findings, findings, findingsOfOption_shift]
    rfl
  | block body => rw [map, findings, findings, findingsOfAll_shift inFunction _ body]
  | ifThen condition thenBranch =>
    simp only [map, findings, condition.findings_shift, thenBranch.findings_shift, List.map_append]
  | ifElse condition thenBranch elseBranch =>
    simp only [map, findings, condition.findings_shift, thenBranch.findings_shift,
      elseBranch.findings_shift, List.map_append]
  | whileLoop condition body =>
    simp only [map, findings, condition.findings_shift, body.findings_shift, List.map_append]
  | function name params body =>
    simp only [map, findings, findingsOfAll_shift true _ body, List.foldl_map]
    rfl
  | returnFrom keyword value =>
    rw [map, findings, findings, findingsOfOption_shift]
    cases inFunction <;> rfl

theorem findingsOfAll_shift (inFunction : Bool) (scopes : List Scope) (ss : List Stmt) :
    findingsOfAll inFunction scopes (mapAll σ.node σ.token ss) =
      ((findingsOfAll inFunction scopes ss).1,
        (findingsOfAll inFunction scopes ss).2.map σ.finding) := by
  match ss with
  | [] => rfl
  | s :: ss =>
    simp only [mapAll, findingsOfAll, s.findings_shift, findingsOfAll_shift inFunction _ ss,
      List.map_append]

end

end Stmt

theorem resolve_shift (program : List Stmt) : resolve (program.map σ.stmt) =
    ⟨(resolve program).references.map σ.reference, (resolve program).errors.map σ.diagnostic⟩ := by
  have hreference : Finding.reference? ∘ σ.finding = Option.map σ.reference ∘ Finding.reference? := by
    funext f
    cases f <;> rfl
  have herror : Finding.error? ∘ σ.finding = Option.map σ.diagnostic ∘ Finding.error? := by
    funext f
    cases f <;> rfl
  have hmap : program.map σ.stmt = Stmt.mapAll σ.node σ.token program :=
    (Stmt.mapAll_eq_map _ _ _).symm
  rw [resolve, hmap, Stmt.findingsOfAll_shift, resolve]
  simp only [List.filterMap_map, hreference, herror, List.map_filterMap]
  rfl

/-- Recording references further down keeps tables in step. -/
theorem Resolution.foldl_record_shift (refs : List Reference) {table table' : HopTable}
    (hhops : ∀ id, table'[σ.node id]? = table[id]?) (hsize : table'.size = table.size) :
    (∀ id, ((refs.map σ.reference).foldl Reference.record table')[σ.node id]? =
        (refs.foldl Reference.record table)[id]?) ∧
      ((refs.map σ.reference).foldl Reference.record table').size =
        (refs.foldl Reference.record table).size := by
  induction refs generalizing table table' with
  | nil => exact ⟨hhops, hsize⟩
  | cons r refs ih =>
    rw [List.map_cons, List.foldl_cons, List.foldl_cons]
    cases hr : r.hops with
    | none =>
      have hrecord : r.record table = table := by rw [Reference.record, hr]
      have hrecord' : (σ.reference r).record table' = table' := by
        rw [Reference.record, Shift.reference, hr]
      rw [hrecord, hrecord']
      exact ih hhops hsize
    | some d =>
      have hrecord : r.record table = table.insert r.id d := by rw [Reference.record, hr]
      have hrecord' : (σ.reference r).record table' = table'.insert (σ.node r.id) d := by
        rw [Reference.record, Shift.reference, hr]
      rw [hrecord, hrecord']
      refine ih (fun id => ?_) ?_
      · rw [Std.TreeMap.getElem?_insert, Std.TreeMap.getElem?_insert, hhops]
        have hsame : compare (σ.node r.id) (σ.node id) = .eq ↔ compare r.id id = .eq := by
          simp only [Std.compare_eq_iff_eq, Shift.node, Nat.add_right_cancel_iff]
        simp only [hsame]
      · have hsame : table'.contains (σ.node r.id) = table.contains r.id := by
          rw [Std.TreeMap.contains_eq_isSome_getElem?, Std.TreeMap.contains_eq_isSome_getElem?,
            hhops]
        change (table'.insert (σ.node r.id) d).size = (table.insert r.id d).size
        simp only [Std.TreeMap.size_insert, hsize, hsame]

/-- The table of a program further down. -/
theorem hops_shift (σ : Shift) (program : List Stmt) :
    (∀ id, (resolve (program.map σ.stmt)).hops[σ.node id]? = (resolve program).hops[id]?) ∧
      (resolve (program.map σ.stmt)).hops.size = (resolve program).hops.size := by
  rw [resolve_shift]
  exact Resolution.foldl_record_shift _ (fun id => by simp) rfl

end TreeWalk
