import TreeWalk.Proofs.Resolution.Sites

/-! Variables inside of functions that scopes around the functions might capture: a scope may come to
declare the name of the variable after the function was declared. -/

namespace TreeWalk

/-- A variable stands in the body of a function, and `k` steps outward from it is a scope around the
declaration of the function which declares the name of the variable, before the function or after
it. Since no two variables have the same identity, a function with the same parameters and body in
the same place is the function around the variable. -/
def Program.Captures (p : Program) (id : NodeId) (name : Token) (k : Nat) : Prop :=
  ∃ inner f params body outer e j region,
    (inner ++ ⟨params, body⟩ :: outer, e) ∈ p.sites ∧ e.mention? = some (id, name) ∧
      (outer, .function f params body) ∈ p.places ∧ outer[j]? = some region ∧
        region.Declares name.lexeme ∧ k = inner.length + 1 + j

/-- Programs in which names alone tell variables apart. Inside of a function, no variable is resolved
to a binding further out than a scope around the function that declares its name; and nothing local
is assigned to in its own initializer. -/
structure Program.NamesSuffice (p : Program) : Prop where
  captures : ∀ id name k, p.Captures id name k → ∃ d ≤ k, p.resolution.hops[id]? = some d
  initializers : ∀ regions t initializer, (regions, .declare t (some initializer)) ∈ p.places →
    regions ≠ [] → ∀ id name value, .assign id name value ∈ initializer.parts →
      name.lexeme ≠ t.lexeme

namespace Stmt

theorem mem_placesOfAll {regions : List Region} {s : Stmt} {ss : List Stmt} (h : s ∈ ss) :
    (regions, s) ∈ placesOfAll regions ss := by
  induction ss with
  | nil => cases h
  | cons first ss ih =>
    rcases List.mem_cons.mp h with rfl | h
    · exact List.mem_append_left _ (mem_places_self regions s)
    · exact List.mem_append_right _ (ih h)

mutual

/-- Where an expression stands inside a region, all statements of the region stand there as well. -/
theorem places_of_sites {regions rest : List Region} {r : Region} {s : Stmt} {e : Expr}
    (h : (r :: rest, e) ∈ s.sites regions) :
    r :: rest = regions ∨ ∀ s' ∈ r.body, (r :: rest, s') ∈ s.places regions := by
  have hhere {es : List Expr} (h : (r :: rest, e) ∈ es.map (regions, ·)) :
      r :: rest = regions := by
    obtain ⟨e', -, heq⟩ := List.mem_map.mp h
    exact (congrArg Prod.fst heq).symm
  -- The region of a block or function is the one looked for, or is around it.
  have hbody {params : List Token} {body : List Stmt} {first : List Region × Stmt}
      (h : r :: rest = ⟨params, body⟩ :: regions ∨
        ∀ s' ∈ r.body, (r :: rest, s') ∈ placesOfAll (⟨params, body⟩ :: regions) body) :
      ∀ s' ∈ r.body,
        (r :: rest, s') ∈ first :: placesOfAll (⟨params, body⟩ :: regions) body := by
    rcases h with h | h
    · obtain ⟨rfl, rfl⟩ := List.cons.inj h
      exact fun s' hs => List.mem_cons_of_mem _ (mem_placesOfAll hs)
    · exact fun s' hs => List.mem_cons_of_mem _ (h s' hs)
  match s with
  | expression _ | print _ | declare _ _ | returnFrom _ _ => exact Or.inl (hhere h)
  | block body | function _ _ body => exact Or.inr (hbody (placesOfAll_of_sites h))
  | ifThen _ branch | whileLoop _ branch =>
    rcases List.mem_append.mp h with h | h
    · exact Or.inl (hhere h)
    · exact (branch.places_of_sites h).imp_right fun h s' hs => List.mem_cons_of_mem _ (h s' hs)
  | ifElse _ thenBranch elseBranch =>
    rcases List.mem_append.mp h with h | h
    · exact Or.inl (hhere h)
    rcases List.mem_append.mp h with h | h
    · exact (thenBranch.places_of_sites h).imp_right fun h s' hs =>
        List.mem_cons_of_mem _ (List.mem_append_left _ (h s' hs))
    · exact (elseBranch.places_of_sites h).imp_right fun h s' hs =>
        List.mem_cons_of_mem _ (List.mem_append_right _ (h s' hs))

theorem placesOfAll_of_sites {regions rest : List Region} {r : Region} {ss : List Stmt} {e : Expr}
    (h : (r :: rest, e) ∈ sitesOfAll regions ss) :
    r :: rest = regions ∨ ∀ s' ∈ r.body, (r :: rest, s') ∈ placesOfAll regions ss := by
  match ss with
  | [] => cases h
  | s :: ss =>
    rcases List.mem_append.mp h with h | h
    · exact (s.places_of_sites h).imp_right fun h s' hs => List.mem_append_left _ (h s' hs)
    · exact (placesOfAll_of_sites h).imp_right fun h s' hs => List.mem_append_right _ (h s' hs)

end

end Stmt

/-- A local variable is not assigned to in the initializer that declares it first. -/
theorem Program.NamesSuffice.not_initializes {p : Program} (h : p.NamesSuffice)
    {regions : List Region} {r : Region} {id : NodeId} {name : Token} {value : Expr}
    (hsite : (regions, .assign id name value) ∈ p.sites) (hr : r ∈ regions.head?) :
    ¬ r.Initializes name.lexeme (.assign id name value) := by
  rintro ⟨before, t, initializer, after, hbody, hname, hpart, -⟩
  cases regions with
  | nil => cases hr
  | cons r' rest =>
    cases hr
    have hdeclaration : .declare t (some initializer) ∈ r.body := by simp [hbody]
    have hplace : (r :: rest, .declare t (some initializer)) ∈ p.places := by
      rcases Stmt.placesOfAll_of_sites hsite with heq | hall
      · cases heq
      · exact hall _ hdeclaration
    exact h.initializers _ t initializer hplace (List.cons_ne_nil r rest) id name value hpart
      hname.symm

/-- The innermost `n` parts around some code are those inside of the function that the code belongs
to, the last one being the body of the function; or all of them, where there is no function. -/
inductive Program.InCall (p : Program) : List Region → Nat → Prop where
  | program : InCall p [] 0
  | body {f params body outer} : (outer, .function f params body) ∈ p.places →
      InCall p (⟨params, body⟩ :: outer) 1
  | block {region regions n} : InCall p regions n → InCall p (region :: regions) (n + 1)

/-- Further out than the running call are the parts that its function is declared in. -/
theorem Program.InCall.captures {p : Program} {regions : List Region} {n : Nat}
    (h : p.InCall regions n) {e : Expr} {id : NodeId} {name : Token}
    (hsite : (regions, e) ∈ p.sites) (hmention : e.mention? = some (id, name)) {k : Nat}
    (hk : n ≤ k) {region : Region} (hregion : regions[k]? = some region)
    (hdeclares : region.Declares name.lexeme) : p.Captures id name k := by
  have hsplit : ∃ inner f params body outer j, regions = inner ++ ⟨params, body⟩ :: outer ∧
      (outer, .function f params body) ∈ p.places ∧ outer[j]? = some region ∧
        k = inner.length + 1 + j := by
    clear hsite
    induction h generalizing k with
    | program => cases hregion
    | @body f params body outer hplace =>
      obtain ⟨j, rfl⟩ := Nat.exists_eq_add_of_le hk
      rw [Nat.add_comm, List.getElem?_cons_succ] at hregion
      exact ⟨[], f, params, body, outer, j, rfl, hplace, hregion, rfl⟩
    | @block r regions n _ ih =>
      obtain ⟨k, rfl⟩ := Nat.exists_eq_add_of_le' (Nat.le_trans (Nat.le_add_left 1 n) hk)
      obtain ⟨inner, f, params, body, outer, j, rfl, hplace, hj, hkj⟩ :=
        ih (Nat.le_of_succ_le_succ hk) hregion
      refine ⟨r :: inner, f, params, body, outer, j, rfl, hplace, hj, ?_⟩
      rw [List.length_cons, hkj]
      omega
  obtain ⟨inner, f, params, body, outer, j, rfl, hplace, hj, hkj⟩ := hsplit
  exact ⟨inner, f, params, body, outer, e, j, region, hsite, hmention, hplace, hj, hdeclares, hkj⟩

end TreeWalk
