import Mathlib.Data.List.Infix
import TreeWalk.Proofs.Resolution.Sites

/-! Positions in syntax trees. Positions are compared in the order of the text, where what contains
a part comes before it; from the tree alone they tell which scopes stand around a part, and which of
them bind a name there. -/

namespace TreeWalk

/-- A part of a program, or the whole of it. -/
inductive Node where
  | program (statements : List Stmt)
  | stmt (s : Stmt)
  | expr (e : Expr)

/-- Which child to go to at every step from the root. -/
abbrev Position := List Nat

namespace Position

variable {p q u : Position} {k : Nat}

/-- What comes before a position comes before everything around it or in it. -/
theorem lt_append_iff : q < p ++ u ↔ q < p ∨ ∃ w, q = p ++ w ∧ w < u := by
  induction p generalizing q with
  | nil => simp
  | cons i p ih =>
    cases q with
    | nil => simp
    | cons j q =>
      rw [List.cons_append, List.cons_lt_cons_iff, List.cons_lt_cons_iff, ih]
      constructor
      · rintro (hlt | ⟨rfl, hlt | ⟨w, rfl, hw⟩⟩)
        · exact Or.inl (Or.inl hlt)
        · exact Or.inl (Or.inr ⟨rfl, hlt⟩)
        · exact Or.inr ⟨w, rfl, hw⟩
      · rintro ((hlt | ⟨rfl, hlt⟩) | ⟨w, heq, hw⟩)
        · exact Or.inl hlt
        · exact Or.inr ⟨rfl, Or.inl hlt⟩
        · obtain ⟨rfl, rfl⟩ := List.cons.inj heq
          exact Or.inr ⟨rfl, Or.inr ⟨w, rfl, hw⟩⟩

/-- Only the part itself comes between it and its first child. -/
theorem lt_first_iff : q < p ++ [0] ↔ q < p ∨ q = p := by
  rw [lt_append_iff]
  refine or_congr_right ⟨?_, ?_⟩
  · rintro ⟨w, rfl, hw⟩
    cases w with
    | nil => exact List.append_nil p
    | cons i w => simp [List.cons_lt_cons_iff] at hw
  · rintro rfl
    exact ⟨[], (List.append_nil q).symm, List.nil_lt_cons 0 []⟩

/-- Only what a child contains comes between it and the next child. -/
theorem lt_next_iff : q < p ++ [k + 1] ↔ q < p ++ [k] ∨ p ++ [k] <+: q := by
  rw [lt_append_iff, lt_append_iff, or_assoc]
  refine or_congr_right ⟨?_, ?_⟩
  · rintro ⟨w, rfl, hw⟩
    cases w with
    | nil => exact Or.inl ⟨[], rfl, List.nil_lt_cons k []⟩
    | cons i w =>
      rw [List.cons_lt_cons_iff] at hw
      have hle : i ≤ k := by
        rcases hw with hlt | ⟨-, hw⟩
        · omega
        · cases hw
      rcases Nat.lt_or_eq_of_le hle with hlt | rfl
      · exact Or.inl ⟨i :: w, rfl, List.cons_lt_cons_iff.mpr (Or.inl hlt)⟩
      · exact Or.inr ⟨w, by simp⟩
  · rintro (⟨w, rfl, hw⟩ | ⟨w, rfl⟩)
    · refine ⟨w, rfl, ?_⟩
      cases w with
      | nil => exact List.nil_lt_cons _ []
      | cons i w =>
        rw [List.cons_lt_cons_iff] at hw
        rcases hw with hlt | ⟨-, hw⟩
        · exact List.cons_lt_cons_iff.mpr (Or.inl (by omega))
        · cases hw
    · exact ⟨k :: w, by simp, List.cons_lt_cons_iff.mpr (Or.inl (Nat.lt_succ_self k))⟩

/-- What contains a part comes before it. -/
theorem not_lt_of_prefix (h : p <+: q) : ¬ q < p := by
  obtain ⟨w, rfl⟩ := h
  induction p with
  | nil => exact List.not_lt_nil _
  | cons i p ih =>
    rw [List.cons_append, List.cons_lt_cons_iff, not_or]
    exact ⟨Nat.lt_irrefl i, fun h => ih h.2⟩

/-- The positions that contain the given one, outermost first. -/
def around (p : Position) : List Position :=
  p.inits.dropLast

theorem around_concat (p : Position) (i : Nat) : around (p ++ [i]) = around p ++ [p] := by
  have hinits : (p ++ [i]).inits = p.inits ++ [p ++ [i]] := by
    rw [List.inits_append]
    rfl
  have hlast : p.inits = p.inits.dropLast ++ [p] := by
    induction p using List.reverseRecOn with
    | nil => rfl
    | append_singleton p j _ =>
      rw [List.inits_append]
      exact (congrArg (· ++ _) List.dropLast_concat).symm
  rw [around, hinits, List.dropLast_concat]
  exact hlast

end Position

namespace Expr

def children : Expr → List Expr
  | literal _ => []
  | grouping inner => [inner]
  | unary _ right => [right]
  | binary left _ right => [left, right]
  | logical left _ right => [left, right]
  | var _ _ => []
  | assign _ _ value => [value]
  | call callee _ arguments => callee :: arguments

end Expr

namespace Node

/-- What a part consists of, in the order of the text. (The increment of a `forLoop` stands after the
body and not before it, and in the text neither of them can declare anything around it.) -/
def children : Node → List Node
  | program statements => statements.map stmt
  | stmt (.expression e) => [expr e]
  | stmt (.print e) => [expr e]
  | stmt (.declare _ initializer) => initializer.toList.map expr
  | stmt (.block body) => body.map stmt
  | stmt (.ifThen condition thenBranch) => [expr condition, stmt thenBranch]
  | stmt (.ifElse condition thenBranch elseBranch) =>
    [expr condition, stmt thenBranch, stmt elseBranch]
  | stmt (.whileLoop condition body) => [expr condition, stmt body]
  | stmt (.function _ _ body) => body.map stmt
  | stmt (.returnFrom _ value) => value.toList.map expr
  | expr e => e.children.map expr

/-- What stands at a position. -/
def get? : Node → Position → Option Node
  | n, [] => some n
  | n, i :: p => n.children[i]?.bind fun child => child.get? p

/-- The parameters of a part that has a scope of its own. The scope of a block has none. -/
def params? : Node → Option (List Token)
  | stmt (.block _) => some []
  | stmt (.function _ params _) => some params
  | _ => none

/-- The name that a part declares in the scope it stands in. -/
def declared? : Node → Option Token
  | stmt s => s.declared?
  | _ => none

/-- The identity and the name of a variable that is read or written. -/
def mention? : Node → Option (NodeId × Token)
  | expr e => e.mention?
  | _ => none

/-- Where the scopes around a position stand, innermost first. -/
def enclosing (root : Node) (p : Position) : List Position :=
  (p.around.filter fun σ => ((root.get? σ).bind params?).isSome).reverse

/-- Whether a scope has a name among its parameters, or directly contains a declaration of it that
comes before the given position in the text. A declaration comes before its own initializer, and a
function before its own body. -/
def Binds (root : Node) (name : String) (p σ : Position) : Prop :=
  (∃ params, (root.get? σ).bind params? = some params ∧ ∃ t ∈ params, t.lexeme = name) ∨
    ∃ q t, q < p ∧ (root.get? q).bind declared? = some t ∧ t.lexeme = name ∧
      (root.enclosing q).head? = some σ

variable {root n child : Node} {p q ρ σ : Position} {i : Nat} {name : String}

theorem get?_append (n : Node) (p q : Position) :
    n.get? (p ++ q) = (n.get? p).bind fun child => child.get? q := by
  induction p generalizing n with
  | nil => rfl
  | cons i p ih =>
    rw [List.cons_append, get?, get?]
    cases n.children[i]? with
    | none => rfl
    | some child => exact ih child

theorem get?_concat (h : root.get? ρ = some n) : root.get? (ρ ++ [i]) = n.children[i]? := by
  rw [get?_append, h, Option.bind_some, get?]
  cases n.children[i]? <;> rfl

theorem enclosing_concat (root : Node) (p : Position) (i : Nat) : root.enclosing (p ++ [i]) =
    if ((root.get? p).bind params?).isSome then p :: root.enclosing p else root.enclosing p := by
  rw [enclosing, Position.around_concat, List.filter_append, List.reverse_append, enclosing,
    List.filter_singleton]
  cases ((root.get? p).bind params?).isSome <;> rfl

theorem enclosing_of_scope {params : List Token} (h : root.get? ρ = some n)
    (hparams : n.params? = some params) (i : Nat) :
    root.enclosing (ρ ++ [i]) = ρ :: root.enclosing ρ := by
  rw [enclosing_concat, h, Option.bind_some, hparams]
  rfl

theorem enclosing_of_no_scope (h : root.get? ρ = some n) (hparams : n.params? = none) (i : Nat) :
    root.enclosing (ρ ++ [i]) = root.enclosing ρ := by
  rw [enclosing_concat, h, Option.bind_some, hparams]
  rfl

/-- A scope around a position contains it. -/
theorem mem_enclosing (h : σ ∈ root.enclosing p) : σ <+: p ∧ σ ≠ p := by
  induction p using List.reverseRecOn with
  | nil => cases h
  | append_singleton p i ih =>
    have hmem : σ = p ∨ σ ∈ root.enclosing p := by
      rw [enclosing_concat] at h
      split at h
      · exact List.mem_cons.mp h
      · exact Or.inr h
    have hwithin : σ <+: p := by
      rcases hmem with rfl | hmem
      · exact List.prefix_rfl
      · exact (ih hmem).1
    refine ⟨hwithin.trans (List.prefix_append p [i]), ?_⟩
    rintro rfl
    have hlen := hwithin.length_le
    rw [List.length_append, List.length_singleton] at hlen
    omega

theorem nodup_enclosing (root : Node) (p : Position) : (root.enclosing p).Nodup := by
  induction p using List.reverseRecOn with
  | nil => exact List.nodup_nil
  | append_singleton p i ih =>
    rw [enclosing_concat]
    split
    · exact List.nodup_cons.mpr ⟨fun h => (mem_enclosing h).2 rfl, ih⟩
    · exact ih

/-- Inside an expression there are only expressions. -/
theorem get?_expr {e : Expr} (h : (expr e).get? p = some n) : ∃ e', n = expr e' := by
  induction p generalizing e with
  | nil =>
    cases h
    exact ⟨e, rfl⟩
  | cons i p ih =>
    obtain ⟨child, hchild, hget⟩ := Option.bind_eq_some_iff.mp h
    obtain ⟨e', -, rfl⟩ := List.mem_map.mp (List.mem_of_getElem? hchild)
    exact ih hget

end Node

end TreeWalk
