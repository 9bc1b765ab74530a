import Mathlib.Data.List.Nodup
import TreeWalk.Proofs.Renaming.Tree
import TreeWalk.Proofs.Resolution.Faults

/-! One statement of a program replaced by another one: what the resolver makes of both of them in
that place. -/

namespace TreeWalk.Stmt

variable {s s' : Stmt}

mutual

theorem Replaced.ids_eq (hids : s'.ids = s.ids) {t t' : Stmt} (h : Replaced s s' t t') :
    t'.ids = t.ids := by
  match h with
  | .here => exact hids
  | .block h | .function h => exact h.ids_eq hids
  | .ifThen h | .thenBranch h | .elseBranch h | .whileLoop h => rw [ids, ids, h.ids_eq hids]

theorem ReplacedIn.ids_eq (hids : s'.ids = s.ids) {ts ts' : List Stmt}
    (h : ReplacedIn s s' ts ts') : idsOfAll ts' = idsOfAll ts := by
  match h with
  | .head h | .tail h => rw [idsOfAll, idsOfAll, h.ids_eq hids]

end

mutual

/-- A part of a tree has no identity twice if all of the tree has none. -/
theorem Replaced.nodup {t t' : Stmt} (h : Replaced s s' t t') (hnodup : t.ids.Nodup) :
    s.ids.Nodup := by
  match h with
  | .here => exact hnodup
  | .block h | .function h => exact h.nodup hnodup
  | .ifThen h | .elseBranch h | .whileLoop h => exact h.nodup (List.Nodup.of_append_right hnodup)
  | .thenBranch h =>
    exact h.nodup (List.Nodup.of_append_right (List.Nodup.of_append_left hnodup))

theorem ReplacedIn.nodup {ts ts' : List Stmt} (h : ReplacedIn s s' ts ts')
    (hnodup : (idsOfAll ts).Nodup) : s.ids.Nodup := by
  match h with
  | .head h => exact h.nodup (List.Nodup.of_append_left hnodup)
  | .tail h => exact h.nodup (List.Nodup.of_append_right hnodup)

end

section Map

variable (f : NodeId → NodeId) (g : Token → Token)

mutual

/-- With other identities and tokens throughout. -/
theorem Replaced.map {t t' : Stmt} (h : Replaced s s' t t') :
    Replaced (s.map f g) (s'.map f g) (t.map f g) (t'.map f g) := by
  match h with
  | .here => exact .here
  | .block h => exact .block h.mapAll
  | .ifThen h => exact .ifThen h.map
  | .thenBranch h => exact .thenBranch h.map
  | .elseBranch h => exact .elseBranch h.map
  | .whileLoop h => exact .whileLoop h.map
  | .function h => exact .function h.mapAll

theorem ReplacedIn.mapAll {ts ts' : List Stmt} (h : ReplacedIn s s' ts ts') :
    ReplacedIn (s.map f g) (s'.map f g) (Stmt.mapAll f g ts) (Stmt.mapAll f g ts') := by
  match h with
  | .head h => exact .head h.map
  | .tail h => exact .tail h.mapAll

end

end Map

mutual

/-- A statement that has the same faults in every place may be put in any place. -/
theorem Replaced.faults_eq
    (hfaults : ∀ inFunction inScope, s'.faults inFunction inScope = s.faults inFunction inScope)
    {t t' : Stmt} (h : Replaced s s' t t') (inFunction inScope : Bool) :
    t'.faults inFunction inScope = t.faults inFunction inScope := by
  match h with
  | .here => exact hfaults inFunction inScope
  | .block h => exact h.faults_eq hfaults inFunction true
  | .function h => exact h.faults_eq hfaults true true
  | .ifThen h | .whileLoop h => exact h.faults_eq hfaults inFunction inScope
  | .thenBranch h | .elseBranch h => rw [faults, faults, h.faults_eq hfaults]

theorem ReplacedIn.faults_eq
    (hfaults : ∀ inFunction inScope, s'.faults inFunction inScope = s.faults inFunction inScope)
    {ts ts' : List Stmt} (h : ReplacedIn s s' ts ts') (inFunction inScope : Bool) :
    faultsOfAll inFunction inScope ts' = faultsOfAll inFunction inScope ts := by
  match h with
  | .head h | .tail h => rw [faultsOfAll, faultsOfAll, h.faults_eq hfaults]

end

mutual

/-- The two statements are walked in the same scopes, because all that is walked before them is the
same. -/
theorem Replaced.exists_findings {t t' : Stmt} (h : Replaced s s' t t') (inFunction : Bool)
    (scopes : List Scope) : ∃ inFunction' scopes',
      (s.findings inFunction' scopes').2 ⊆ (t.findings inFunction scopes).2 ∧
        (s'.findings inFunction' scopes').2 ⊆ (t'.findings inFunction scopes).2 := by
  match h with
  | .here => exact ⟨inFunction, scopes, List.Subset.refl _, List.Subset.refl _⟩
  | .block h => exact h.exists_findings inFunction ([] :: scopes)
  | @Replaced.function _ _ name params _ _ h =>
    exact h.exists_findings true
      (params.foldl (fun scopes p => Scope.note p true scopes) ([] :: Scope.note name true scopes))
  | .ifThen h | .whileLoop h =>
    obtain ⟨inFunction', scopes', hfound, hfound'⟩ := h.exists_findings inFunction scopes
    exact ⟨inFunction', scopes', List.subset_append_of_subset_right _ hfound,
      List.subset_append_of_subset_right _ hfound'⟩
  | .thenBranch h =>
    obtain ⟨inFunction', scopes', hfound, hfound'⟩ := h.exists_findings inFunction scopes
    exact ⟨inFunction', scopes',
      List.subset_append_of_subset_left _ (List.subset_append_of_subset_right _ hfound),
      List.subset_append_of_subset_left _ (List.subset_append_of_subset_right _ hfound')⟩
  | @Replaced.elseBranch _ _ _ t _ _ h =>
    obtain ⟨inFunction', scopes', hfound, hfound'⟩ :=
      h.exists_findings inFunction (t.findings inFunction scopes).1
    exact ⟨inFunction', scopes', List.subset_append_of_subset_right _ hfound,
      List.subset_append_of_subset_right _ hfound'⟩

theorem ReplacedIn.exists_findings {ts ts' : List Stmt} (h : ReplacedIn s s' ts ts')
    (inFunction : Bool) (scopes : List Scope) : ∃ inFunction' scopes',
      (s.findings inFunction' scopes').2 ⊆ (findingsOfAll inFunction scopes ts).2 ∧
        (s'.findings inFunction' scopes').2 ⊆ (findingsOfAll inFunction scopes ts').2 := by
  match h with
  | .head h =>
    obtain ⟨inFunction', scopes', hfound, hfound'⟩ := h.exists_findings inFunction scopes
    exact ⟨inFunction', scopes', List.subset_append_of_subset_left _ hfound,
      List.subset_append_of_subset_left _ hfound'⟩
  | @ReplacedIn.tail _ _ t _ _ h =>
    obtain ⟨inFunction', scopes', hfound, hfound'⟩ :=
      h.exists_findings inFunction (t.findings inFunction scopes).1
    exact ⟨inFunction', scopes', List.subset_append_of_subset_right _ hfound,
      List.subset_append_of_subset_right _ hfound'⟩

end

mutual

/-- It does not matter to what is no declaration whether it stands in a scope. -/
theorem faults_congr {s : Stmt} (hs : s.isDeclaration = false) (hr : s.Regular)
    (inFunction inScope inScope' : Bool) :
    s.faults inFunction inScope = s.faults inFunction inScope' := by
  match s with
  | expression _ | print _ | block _ | returnFrom _ _ => rfl
  | declare _ _ | function _ _ _ => cases hs
  | ifThen _ t | whileLoop _ t => exact t.faults_congr hr.1 hr.2 inFunction inScope inScope'
  | ifElse _ t u =>
    rw [faults, faults, t.faults_congr hr.1.1 hr.1.2 inFunction inScope inScope',
      u.faults_congr hr.2.1 hr.2.2 inFunction inScope inScope']

end

end TreeWalk.Stmt
