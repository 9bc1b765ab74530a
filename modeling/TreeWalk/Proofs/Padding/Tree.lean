import Mathlib.Data.List.Nodup
import Mathlib.Logic.Function.Iterate
import TreeWalk.Proofs.Renaming.Tree

/-! Programs with further blocks around some of their statements. A frame that is so many steps
outward in the one program is more steps outward in the other. -/

namespace TreeWalk

/-- How many steps outward a frame is with further blocks around, by how many steps it is without
them. -/
abbrev Gaps := Nat → Nat

namespace Gaps

/-- Seen from inside a scope that both programs open. -/
def enter (g : Gaps) : Gaps
  | 0 => 0
  | d + 1 => g d + 1

/-- Seen from inside a further block. -/
def under (g : Gaps) : Gaps :=
  fun d => g d + 1

theorem enter_id : enter id = id := by
  funext d
  cases d <;> rfl

theorem iterate_enter_id (k : Nat) : enter^[k] id = id :=
  Function.iterate_fixed enter_id k

/-- Seen from inside a further block and some scopes more, what is outward of all of these is one
step further. -/
theorem iterate_enter_under_id (k d : Nat) :
    enter^[k] (under id) d = if d < k then d else d + 1 := by
  induction k generalizing d with
  | zero => rfl
  | succ k ih =>
    rw [Function.iterate_succ_apply']
    cases d with
    | zero => rfl
    | succ d =>
      rw [enter, ih]
      by_cases h : d < k
      · rw [if_pos h, if_pos (Nat.succ_lt_succ h)]
      · rw [if_neg h, if_neg (mt Nat.lt_of_succ_lt_succ h)]

end Gaps

mutual

/-- Statements of which the second may have further blocks around its parts. Nothing is declared
right inside of such a block. What `node` says of the variables depends on the gaps where they
stand. -/
inductive Stmt.Padded (node : Gaps → NodeId → Prop) : Gaps → Stmt → Stmt → Prop where
  | expression {g e} : (∀ id ∈ e.ids, node g id) →
      Stmt.Padded node g (.expression e) (.expression e)
  | print {g e} : (∀ id ∈ e.ids, node g id) → Stmt.Padded node g (.print e) (.print e)
  | declare {g name e} : g 0 = 0 → (∀ id ∈ Expr.idsOfOption e, node g id) →
      Stmt.Padded node g (.declare name e) (.declare name e)
  | block {g body body'} : Stmt.AllPadded node g.enter body body' →
      Stmt.Padded node g (.block body) (.block body')
  /-- The further block. -/
  | wrapped {g s s'} : Stmt.Padded node g.under s s' → Stmt.Padded node g s (.block [s'])
  | ifThen {g e s s'} : (∀ id ∈ e.ids, node g id) → Stmt.Padded node g s s' →
      Stmt.Padded node g (.ifThen e s) (.ifThen e s')
  | ifElse {g e s s' t t'} : (∀ id ∈ e.ids, node g id) → Stmt.Padded node g s s' →
      Stmt.Padded node g t t' → Stmt.Padded node g (.ifElse e s t) (.ifElse e s' t')
  | whileLoop {g e s s'} : (∀ id ∈ e.ids, node g id) → Stmt.Padded node g s s' →
      Stmt.Padded node g (.whileLoop e s) (.whileLoop e s')
  | function {g name params body body'} : g 0 = 0 → Stmt.AllPadded node g.enter body body' →
      Stmt.Padded node g (.function name params body) (.function name params body')
  | returnFrom {g keyword e} : (∀ id ∈ Expr.idsOfOption e, node g id) →
      Stmt.Padded node g (.returnFrom keyword e) (.returnFrom keyword e)

inductive Stmt.AllPadded (node : Gaps → NodeId → Prop) : Gaps → List Stmt → List Stmt → Prop where
  | nil {g} : Stmt.AllPadded node g [] []
  | cons {g s s' ss ss'} : Stmt.Padded node g s s' → Stmt.AllPadded node g ss ss' →
      Stmt.AllPadded node g (s :: ss) (s' :: ss')

end

namespace Stmt

variable {node node' : Gaps → NodeId → Prop} {s : Stmt}

mutual

theorem Padded.mono {g : Gaps} {s s' : Stmt} (h : Padded node g s s')
    (hnode : ∀ g, ∀ id ∈ s.ids, node g id → node' g id) : Padded node' g s s' := by
  match h with
  | .expression he => exact .expression fun id hid => hnode _ id hid (he id hid)
  | .print he => exact .print fun id hid => hnode _ id hid (he id hid)
  | .declare hg he => exact .declare hg fun id hid => hnode _ id hid (he id hid)
  | .block h => exact .block (h.mono hnode)
  | .wrapped h => exact .wrapped (h.mono hnode)
  | .ifThen he h =>
    simp only [ids, List.mem_append] at hnode
    exact .ifThen (fun id hid => hnode _ id (.inl hid) (he id hid))
      (h.mono fun g id hid => hnode g id (.inr hid))
  | .ifElse he h h' =>
    simp only [ids, List.mem_append] at hnode
    exact .ifElse (fun id hid => hnode _ id (.inl (.inl hid)) (he id hid))
      (h.mono fun g id hid => hnode g id (.inl (.inr hid)))
      (h'.mono fun g id hid => hnode g id (.inr hid))
  | .whileLoop he h =>
    simp only [ids, List.mem_append] at hnode
    exact .whileLoop (fun id hid => hnode _ id (.inl hid) (he id hid))
      (h.mono fun g id hid => hnode g id (.inr hid))
  | .function hg h => exact .function hg (h.mono hnode)
  | .returnFrom he => exact .returnFrom fun id hid => hnode _ id hid (he id hid)

theorem AllPadded.mono {g : Gaps} {ss ss' : List Stmt} (h : AllPadded node g ss ss')
    (hnode : ∀ g, ∀ id ∈ idsOfAll ss, node g id → node' g id) : AllPadded node' g ss ss' := by
  match h with
  | .nil => exact .nil
  | .cons h h' =>
    simp only [idsOfAll, List.mem_append] at hnode
    exact .cons (h.mono fun g id hid => hnode g id (.inl hid))
      (h'.mono fun g id hid => hnode g id (.inr hid))

end

mutual

/-- Every variable stands behind gaps of some kind. -/
theorem Padded.exists_gaps {g : Gaps} {s s' : Stmt} (h : Padded node g s s') {i : NodeId}
    (hi : i ∈ s.ids) : ∃ g, node g i := by
  match h with
  | .expression he | .print he | .declare _ he | .returnFrom he => exact ⟨_, he i hi⟩
  | .block h | .wrapped h | .function _ h => exact h.exists_gaps hi
  | .ifThen he h | .whileLoop he h =>
    exact (List.mem_append.mp hi).elim (fun hi => ⟨_, he i hi⟩) h.exists_gaps
  | .ifElse he h h' =>
    rcases List.mem_append.mp hi with hi | hi
    · exact (List.mem_append.mp hi).elim (fun hi => ⟨_, he i hi⟩) h.exists_gaps
    · exact h'.exists_gaps hi

theorem AllPadded.exists_gaps {g : Gaps} {ss ss' : List Stmt} (h : AllPadded node g ss ss')
    {i : NodeId} (hi : i ∈ idsOfAll ss) : ∃ g, node g i := by
  match h with
  | .nil => cases hi
  | .cons h h' => exact (List.mem_append.mp hi).elim h.exists_gaps h'.exists_gaps

end

mutual

/-- Further blocks have no variables of their own. -/
theorem Padded.ids_eq {g : Gaps} {s s' : Stmt} (h : Padded node g s s') : s'.ids = s.ids := by
  match h with
  | .expression _ | .print _ | .declare _ _ | .returnFrom _ => rfl
  | .block h => exact h.ids_eq
  | .wrapped h => rw [ids, idsOfAll, idsOfAll, List.append_nil, h.ids_eq]
  | .ifThen _ h => rw [ids, ids, h.ids_eq]
  | .ifElse _ h h' => rw [ids, ids, h.ids_eq, h'.ids_eq]
  | .whileLoop _ h => rw [ids, ids, h.ids_eq]
  | .function _ h => exact h.ids_eq

theorem AllPadded.ids_eq {g : Gaps} {ss ss' : List Stmt} (h : AllPadded node g ss ss') :
    idsOfAll ss' = idsOfAll ss := by
  match h with
  | .nil => rfl
  | .cons h h' => rw [idsOfAll, idsOfAll, h.ids_eq, h'.ids_eq]

end

mutual

/-- The variables of a statement, each with the number of scopes of the statement itself around
it. -/
def depths : Stmt → List (NodeId × Nat)
  | expression e => e.ids.map (·, 0)
  | print e => e.ids.map (·, 0)
  | declare _ initializer => (Expr.idsOfOption initializer).map (·, 0)
  | block body => (depthsOfAll body).map (Prod.map id Nat.succ)
  | ifThen condition thenBranch => condition.ids.map (·, 0) ++ depths thenBranch
  | ifElse condition thenBranch elseBranch =>
    condition.ids.map (·, 0) ++ depths thenBranch ++ depths elseBranch
  | whileLoop condition body => condition.ids.map (·, 0) ++ depths body
  | function _ _ body => (depthsOfAll body).map (Prod.map id Nat.succ)
  | returnFrom _ value => (Expr.idsOfOption value).map (·, 0)

def depthsOfAll : List Stmt → List (NodeId × Nat)
  | [] => []
  | s :: ss => depths s ++ depthsOfAll ss

end

mutual

theorem map_fst_depths (s : Stmt) : s.depths.map Prod.fst = s.ids := by
  match s with
  | expression _ | print _ | declare _ _ | returnFrom _ _ => simp [depths, ids, Function.comp_def]
  | block body | function _ _ body => simp [depths, ids, ← map_fst_depthsOfAll body]
  | ifThen _ t | whileLoop _ t => simp [depths, ids, Function.comp_def, t.map_fst_depths]
  | ifElse _ t u =>
    simp [depths, ids, Function.comp_def, t.map_fst_depths, u.map_fst_depths]

theorem map_fst_depthsOfAll (ss : List Stmt) : (depthsOfAll ss).map Prod.fst = idsOfAll ss := by
  match ss with
  | [] => rfl
  | s :: ss => simp [depthsOfAll, idsOfAll, s.map_fst_depths, map_fst_depthsOfAll ss]

end

theorem mem_ids_of_mem_depths {i : NodeId} {k : Nat} (h : (i, k) ∈ s.depths) : i ∈ s.ids :=
  s.map_fst_depths ▸ List.mem_map_of_mem h

theorem mem_idsOfAll_of_mem_depths {ss : List Stmt} {i : NodeId} {k : Nat}
    (h : (i, k) ∈ depthsOfAll ss) : i ∈ idsOfAll ss :=
  map_fst_depthsOfAll ss ▸ List.mem_map_of_mem h

mutual

/-- A statement that stays as it is, with further blocks at most around all of it. Right inside of
one it declares nothing. -/
theorem padded_self {g : Gaps} (s : Stmt) (hg : g 0 = 0 ∨ s.isDeclaration = false ∧ s.Regular)
    (hnode : ∀ i k, (i, k) ∈ s.depths → node (Gaps.enter^[k] g) i) : Padded node g s s := by
  match s with
  | expression e => exact .expression fun i hi => hnode i 0 (by simp [depths, hi])
  | print e => exact .print fun i hi => hnode i 0 (by simp [depths, hi])
  | declare name e =>
    exact .declare (hg.resolve_right fun h => nomatch h.1)
      fun i hi => hnode i 0 (by simp [depths, hi])
  | block body =>
    exact .block (allPadded_self body rfl fun i k hi => hnode i (k + 1) (by simp [depths, hi]))
  | ifThen e t =>
    exact .ifThen (fun i hi => hnode i 0 (by simp [depths, hi]))
      (t.padded_self (hg.imp_right fun h => h.2) fun i k hi => hnode i k (by simp [depths, hi]))
  | ifElse e t u =>
    exact .ifElse (fun i hi => hnode i 0 (by simp [depths, hi]))
      (t.padded_self (hg.imp_right fun h => h.2.1) fun i k hi => hnode i k (by simp [depths, hi]))
      (u.padded_self (hg.imp_right fun h => h.2.2) fun i k hi => hnode i k (by simp [depths, hi]))
  | whileLoop e t =>
    exact .whileLoop (fun i hi => hnode i 0 (by simp [depths, hi]))
      (t.padded_self (hg.imp_right fun h => h.2) fun i k hi => hnode i k (by simp [depths, hi]))
  | function name params body =>
    exact .function (hg.resolve_right fun h => nomatch h.1)
      (allPadded_self body rfl fun i k hi => hnode i (k + 1) (by simp [depths, hi]))
  | returnFrom keyword e => exact .returnFrom fun i hi => hnode i 0 (by simp [depths, hi])

theorem allPadded_self {g : Gaps} (ss : List Stmt) (hg : g 0 = 0)
    (hnode : ∀ i k, (i, k) ∈ depthsOfAll ss → node (Gaps.enter^[k] g) i) :
    AllPadded node g ss ss := by
  match ss with
  | [] => exact .nil
  | s :: ss =>
    exact .cons (s.padded_self (.inl hg) fun i k hi => hnode i k (by simp [depthsOfAll, hi]))
      (allPadded_self ss hg fun i k hi => hnode i k (by simp [depthsOfAll, hi]))

end

section Replaced

mutual

/-- What is put in place of a statement stands in all of the tree. -/
theorem Replaced.mem_ids {s' t t' : Stmt} (h : Replaced s s' t t') {i : NodeId} (hi : i ∈ s.ids) :
    i ∈ t.ids := by
  match h with
  | .here => exact hi
  | .block h => exact h.mem_ids hi
  | .ifThen h => exact List.mem_append_right _ (h.mem_ids hi)
  | .thenBranch h => exact List.mem_append_left _ (List.mem_append_right _ (h.mem_ids hi))
  | .elseBranch h => exact List.mem_append_right _ (h.mem_ids hi)
  | .whileLoop h => exact List.mem_append_right _ (h.mem_ids hi)
  | .function h => exact h.mem_ids hi

theorem ReplacedIn.mem_ids {s' : Stmt} {ts ts' : List Stmt} (h : ReplacedIn s s' ts ts')
    {i : NodeId} (hi : i ∈ s.ids) : i ∈ idsOfAll ts := by
  match h with
  | .head h => exact List.mem_append_left _ (h.mem_ids hi)
  | .tail h => exact List.mem_append_right _ (h.mem_ids hi)

end

/-- The gaps where a variable stands when one further block is put around `s`: only the variables
in `s` are inside of it, some of them in scopes of `s` itself. -/
def wrapping (s : Stmt) (g : Gaps) (i : NodeId) : Prop :=
  (i ∉ s.ids → g = id) ∧ ∀ k, (i, k) ∈ s.depths → g = Gaps.enter^[k] (Gaps.under id)

theorem wrapping_outside {i : NodeId} (h : i ∉ s.ids) : s.wrapping id i :=
  ⟨fun _ => rfl, fun _ hk => absurd (mem_ids_of_mem_depths hk) h⟩

theorem wrapping_inside (hnodup : s.ids.Nodup) {i : NodeId} {k : Nat} (h : (i, k) ∈ s.depths) :
    s.wrapping (Gaps.enter^[k] (Gaps.under id)) i := by
  refine ⟨fun hi => absurd (mem_ids_of_mem_depths h) hi, fun k' h' => ?_⟩
  rw [← s.map_fst_depths] at hnodup
  obtain ⟨-, rfl⟩ := Prod.mk.inj (List.inj_on_of_nodup_map hnodup h h' rfl)
  rfl

theorem padded_outside (t : Stmt) (h : ∀ i ∈ s.ids, i ∉ t.ids) : Padded s.wrapping id t t :=
  t.padded_self (.inl rfl) fun i k hi => by
    rw [Gaps.iterate_enter_id]
    exact wrapping_outside fun his => h i his (mem_ids_of_mem_depths hi)

theorem allPadded_outside (ts : List Stmt) (h : ∀ i ∈ s.ids, i ∉ idsOfAll ts) :
    AllPadded s.wrapping id ts ts :=
  allPadded_self ts rfl fun i k hi => by
    rw [Gaps.iterate_enter_id]
    exact wrapping_outside fun his => h i his (mem_idsOfAll_of_mem_depths hi)

mutual

/-- A statement that is no declaration may be put into a block of its own anywhere. -/
theorem padded_replaced (hs : s.isDeclaration = false) {t t' : Stmt}
    (h : Replaced s (.block [s]) t t') (hr : t.Regular) (hnodup : t.ids.Nodup) :
    Padded s.wrapping id t t' := by
  have hcondition {e : Expr} {rest : List NodeId} (hnodup : (e.ids ++ rest).Nodup)
      (hmem : ∀ i ∈ s.ids, i ∈ rest) : ∀ i ∈ e.ids, s.wrapping id i :=
    fun i hi => wrapping_outside fun his => List.disjoint_of_nodup_append hnodup hi (hmem i his)
  match h with
  | .here =>
    exact .wrapped (s.padded_self (.inr ⟨hs, hr⟩) fun i k hi => wrapping_inside hnodup hi)
  | .block h =>
    refine .block ?_
    rw [Gaps.enter_id]
    exact allPadded_replaced hs h hr hnodup
  | .ifThen h =>
    exact .ifThen (hcondition hnodup fun i => h.mem_ids)
      (padded_replaced hs h hr.2 hnodup.of_append_right)
  | @Replaced.thenBranch _ _ e t _ u h =>
    have hfirst : (e.ids ++ t.ids).Nodup := List.Nodup.of_append_left hnodup
    have hother : ∀ i ∈ s.ids, i ∉ u.ids := fun i hi =>
      List.disjoint_of_nodup_append hnodup (List.mem_append_right _ (h.mem_ids hi))
    exact .ifElse (hcondition hfirst fun i => h.mem_ids)
      (padded_replaced hs h hr.1.2 hfirst.of_append_right) (padded_outside u hother)
  | @Replaced.elseBranch _ _ e t u _ h =>
    have hrest : (e.ids ++ (t.ids ++ u.ids)).Nodup := by rwa [← List.append_assoc]
    have hother : ∀ i ∈ s.ids, i ∉ t.ids := fun i hi hit =>
      List.disjoint_of_nodup_append hrest.of_append_right hit (h.mem_ids hi)
    exact .ifElse (hcondition hrest fun i hi => List.mem_append_right _ (h.mem_ids hi))
      (padded_outside t hother)
      (padded_replaced hs h hr.2.2 hrest.of_append_right.of_append_right)
  | .whileLoop h =>
    exact .whileLoop (hcondition hnodup fun i => h.mem_ids)
      (padded_replaced hs h hr.2 hnodup.of_append_right)
  | .function h =>
    refine .function rfl ?_
    rw [Gaps.enter_id]
    exact allPadded_replaced hs h hr hnodup

theorem allPadded_replaced (hs : s.isDeclaration = false) {ts ts' : List Stmt}
    (h : ReplacedIn s (.block [s]) ts ts') (hr : AllRegular ts) (hnodup : (idsOfAll ts).Nodup) :
    AllPadded s.wrapping id ts ts' := by
  match h with
  | @ReplacedIn.head _ _ t t' ts h =>
    exact .cons (padded_replaced hs h hr.1 (List.Nodup.of_append_left hnodup))
      (allPadded_outside ts fun i hi => List.disjoint_of_nodup_append hnodup (h.mem_ids hi))
  | @ReplacedIn.tail _ _ t ts ts' h =>
    exact .cons (padded_outside t fun i hi hit =>
        List.disjoint_of_nodup_append hnodup hit (h.mem_ids hi))
      (allPadded_replaced hs h hr.2 (List.Nodup.of_append_right hnodup))

end

end Replaced

end Stmt

end TreeWalk
