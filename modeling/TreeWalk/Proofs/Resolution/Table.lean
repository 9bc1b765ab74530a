import TreeWalk.Proofs.Grammar.Trees
import TreeWalk.Resolution

/-! The table of hop counts holds what was found for every reference, because no two references of
a tree have the same identity. -/

namespace TreeWalk

/-- The identities of the references among some findings. -/
def Finding.ids (found : List Finding) : List NodeId :=
  (found.filterMap Finding.reference?).map Reference.id

namespace Finding

theorem ids_append (found found' : List Finding) :
    ids (found ++ found') = ids found ++ ids found' := by
  rw [ids, List.filterMap_append, List.map_append]
  rfl

theorem ids_reference (r : Reference) : ids [.reference r] = [r.id] :=
  rfl

end Finding

namespace Expr

mutual

theorem ids_findings (scopes : List Scope) (e : Expr) :
    Finding.ids (e.findings scopes) = e.ids := by
  match e with
  | literal _ => rfl
  | grouping inner => exact inner.ids_findings scopes
  | unary _ right => exact right.ids_findings scopes
  | binary left _ right | logical left _ right =>
    rw [findings, Finding.ids_append, left.ids_findings, right.ids_findings, ids]
  | var id name =>
    rw [findings]
    split <;> rfl
  | assign id name value =>
    rw [findings, Finding.ids_append, value.ids_findings, Finding.ids_reference, ids]
  | call callee _ arguments =>
    rw [findings, Finding.ids_append, callee.ids_findings, ids_findingsOfAll, ids]

theorem ids_findingsOfAll (scopes : List Scope) (es : List Expr) :
    Finding.ids (findingsOfAll scopes es) = idsOfAll es := by
  match es with
  | [] => rfl
  | e :: es =>
    rw [findingsOfAll, Finding.ids_append, e.ids_findings, ids_findingsOfAll scopes es, idsOfAll]

end

end Expr

namespace Stmt

theorem ids_findingsOfOption (scopes : List Scope) (e : Option Expr) :
    Finding.ids (findingsOfOption scopes e) = Expr.idsOfOption e := by
  cases e with
  | none => rfl
  | some e => exact e.ids_findings scopes

mutual

theorem ids_findings (inFunction : Bool) (scopes : List Scope) (s : Stmt) :
    Finding.ids (s.findings inFunction scopes).2 = s.ids := by
  match s with
  | expression e | print e => exact e.ids_findings scopes
  | declare name initializer => exact ids_findingsOfOption _ initializer
  | block body => exact ids_findingsOfAll inFunction ([] :: scopes) body
  | ifThen condition thenBranch =>
    rw [findings, Finding.ids_append, condition.ids_findings, thenBranch.ids_findings, ids]
  | ifElse condition thenBranch elseBranch =>
    rw [findings, Finding.ids_append, Finding.ids_append, condition.ids_findings,
      thenBranch.ids_findings, elseBranch.ids_findings, ids]
  | whileLoop condition body =>
    rw [findings, Finding.ids_append, condition.ids_findings, body.ids_findings, ids]
  | function name params body => exact ids_findingsOfAll true _ body
  | returnFrom keyword value =>
    rw [findings, Finding.ids_append, ids_findingsOfOption, ids]
    cases inFunction <;> rfl

theorem ids_findingsOfAll (inFunction : Bool) (scopes : List Scope) (ss : List Stmt) :
    Finding.ids (findingsOfAll inFunction scopes ss).2 = idsOfAll ss := by
  match ss with
  | [] => rfl
  | s :: ss =>
    rw [findingsOfAll, Finding.ids_append, s.ids_findings, ids_findingsOfAll inFunction _ ss,
      idsOfAll]

end

end Stmt

namespace Resolution

theorem getElem?_record_of_ne {table : HopTable} {r : Reference} {id : NodeId} (h : r.id ≠ id) :
    (r.record table)[id]? = table[id]? := by
  unfold Reference.record
  cases r.hops with
  | none => rfl
  | some d => simp [Std.TreeMap.getElem?_insert, h]

theorem getElem?_foldl_of_not_mem {refs : List Reference} {table : HopTable} {id : NodeId}
    (h : id ∉ refs.map Reference.id) : (refs.foldl Reference.record table)[id]? = table[id]? := by
  induction refs generalizing table with
  | nil => rfl
  | cons r refs ih =>
    simp only [List.map_cons, List.mem_cons, not_or] at h
    rw [List.foldl_cons, ih h.2, getElem?_record_of_ne (Ne.symm h.1)]

theorem getElem?_foldl {refs : List Reference} {table : HopTable}
    (hnodup : (refs.map Reference.id).Nodup) {r : Reference} (hr : r ∈ refs)
    (hfree : table[r.id]? = none) : (refs.foldl Reference.record table)[r.id]? = r.hops := by
  induction refs generalizing table with
  | nil => cases hr
  | cons first refs ih =>
    rw [List.map_cons, List.nodup_cons] at hnodup
    rw [List.foldl_cons]
    rcases List.mem_cons.mp hr with rfl | hr
    · rw [getElem?_foldl_of_not_mem hnodup.1]
      unfold Reference.record
      cases hhops : r.hops with
      | none => simpa only [hhops] using hfree
      | some d => simp
    · have hne : first.id ≠ r.id := by
        intro heq
        exact hnodup.1 (heq ▸ List.mem_map_of_mem hr)
      exact ih hnodup.2 hr (by rw [getElem?_record_of_ne hne, hfree])

end Resolution

/-- What the table of a program says of a reference is what was found for it. -/
theorem resolve_hops {program : List Stmt} (hnodup : (Stmt.idsOfAll program).Nodup)
    {r : Reference} (hr : .reference r ∈ (Stmt.findingsOfAll false [] program).2) :
    (resolve program).hops[r.id]? = r.hops := by
  have hids : ((resolve program).references.map Reference.id).Nodup := by
    rw [← Stmt.ids_findingsOfAll false [] program] at hnodup
    exact hnodup
  refine Resolution.getElem?_foldl hids ?_ (by simp)
  exact List.mem_filterMap.mpr ⟨_, hr, rfl⟩

/-- The table of a program says nothing of identities that the program does not have. -/
theorem resolve_hops_of_not_mem {program : List Stmt} {id : NodeId}
    (h : id ∉ Stmt.idsOfAll program) : (resolve program).hops[id]? = none := by
  rw [← Stmt.ids_findingsOfAll false [] program] at h
  exact (Resolution.getElem?_foldl_of_not_mem h).trans (by simp)

/-! Resolving starts every statement outside of functions and blocks afresh. -/

namespace Stmt

/-- Outside of all scopes no statement leaves any. -/
theorem scopes_findings_nil (inFunction : Bool) (s : Stmt) : (s.findings inFunction []).1 = [] := by
  match s with
  | expression _ | print _ | declare _ _ | block _ | function _ _ _ | returnFrom _ _ => rfl
  | ifThen _ thenBranch => exact thenBranch.scopes_findings_nil inFunction
  | ifElse _ thenBranch elseBranch =>
    have hthen := thenBranch.scopes_findings_nil inFunction
    simp only [findings, hthen]
    exact elseBranch.scopes_findings_nil inFunction
  | whileLoop _ body => exact body.scopes_findings_nil inFunction

theorem findingsOfAll_append (inFunction : Bool) (first rest : List Stmt) :
    (findingsOfAll inFunction [] (first ++ rest)).2 =
      (findingsOfAll inFunction [] first).2 ++ (findingsOfAll inFunction [] rest).2 := by
  induction first with
  | nil => rfl
  | cons s first ih =>
    have hscopes := s.scopes_findings_nil inFunction
    simp only [List.cons_append, findingsOfAll, hscopes, ih, List.append_assoc]

end Stmt

theorem resolve_append (first rest : List Stmt) : resolve (first ++ rest) =
    ⟨(resolve first).references ++ (resolve rest).references,
      (resolve first).errors ++ (resolve rest).errors⟩ := by
  rw [resolve, Stmt.findingsOfAll_append, List.filterMap_append, List.filterMap_append]
  rfl

/-- Recording into a table is recording by itself, and then looking into the table. -/
theorem Resolution.getElem?_foldl_record (refs : List Reference) (table : HopTable)
    (id : NodeId) : (refs.foldl Reference.record table)[id]? =
      (refs.foldl Reference.record ∅)[id]?.or table[id]? := by
  induction refs generalizing table with
  | nil => simp
  | cons r refs ih =>
    have hrecord : (r.record table)[id]? = (r.record ∅)[id]?.or table[id]? := by
      unfold Reference.record
      cases r.hops with
      | none => simp
      | some d =>
        simp only [Std.TreeMap.getElem?_insert, Std.TreeMap.getElem?_emptyc]
        split <;> rfl
    rw [List.foldl_cons, List.foldl_cons, ih, ih (r.record ∅), hrecord, Option.or_assoc]

theorem getElem?_hops_append (first rest : List Stmt) (id : NodeId) :
    (resolve (first ++ rest)).hops[id]? =
      (resolve rest).hops[id]?.or (resolve first).hops[id]? := by
  rw [resolve_append, Resolution.hops, List.foldl_append]
  exact Resolution.getElem?_foldl_record _ _ _

end TreeWalk
