import Mathlib.Data.List.Forall2
import TreeWalk.Proofs.Machine.Basic

/-! Two calls whose arguments are related. Nothing is asked of the relation, except where a host
function is called: it sees views only. -/

namespace TreeWalk

variable {related : Value → Value → Prop} {arguments arguments' : List Value}

/-- Parameters that stand for the names at the same places are bound to related arguments. -/
theorem Bindings.ofArguments_rel {params params' : List Token} {n n' : String}
    (hparams : List.Forall₂ (fun p p' : Token => n = p.lexeme ↔ n' = p'.lexeme) params params')
    (harguments : List.Forall₂ related arguments arguments') :
    Option.Rel related ((ofArguments params arguments).lookup n)
      ((ofArguments params' arguments').lookup n') := by
  have hfold (b b' : Bindings) (hb : Option.Rel related (b.lookup n) (b'.lookup n')) :
      Option.Rel related
        (((params.zip arguments).foldl (fun b pv => b.set pv.1.lexeme pv.2) b).lookup n)
        (((params'.zip arguments').foldl (fun b pv => b.set pv.1.lexeme pv.2) b').lookup n') := by
    induction hparams generalizing arguments arguments' b b' with
    | nil => exact hb
    | @cons p p' _ _ hname _ ih =>
      cases harguments with
      | nil => exact hb
      | cons hv harguments =>
        refine ih harguments _ _ ?_
        rw [lookup_set, lookup_set]
        by_cases hsame : n = p.lexeme
        · rw [if_pos hsame, if_pos (hname.mp hsame)]
          exact .some hv
        · rw [if_neg hsame, if_neg (mt hname.mpr hsame)]
          exact hb
  exact hfold [] [] .none

theorem Value.views_eq (hview : ∀ v v', related v v' → v.view = v'.view)
    (h : List.Forall₂ related arguments arguments') :
    arguments.map Value.view = arguments'.map Value.view := by
  induction h with
  | nil => rfl
  | cons hv _ ih => rw [List.map_cons, List.map_cons, hview _ _ hv, ih]

/-- The same reply to argument lists of any lengths. -/
inductive Reply.Same {n n' : Nat} : Reply n → Reply n' → Prop
  | failure (message : String) : Same (.failure message) (.failure message)
  | literal (l : Literal) : Same (.literal l) (.literal l)
  | argument {i : Nat} (h : i < n) (h' : i < n') : Same (.argument ⟨i, h⟩) (.argument ⟨i, h'⟩)
  | function (name : String) (arity : Nat) (body : HostBody) :
      Same (.function name arity body) (.function name arity body)

/-- Host functions see views only. -/
theorem HostFunction.body_same (f : HostFunction)
    (hview : ∀ v v', related v v' → v.view = v'.view)
    (h : List.Forall₂ related arguments arguments') :
    (f.body (arguments.map Value.view)).Same (f.body (arguments'.map Value.view)) := by
  rw [Value.views_eq hview h]
  cases f.body (arguments'.map Value.view) with
  | failure message => exact .failure message
  | literal l => exact .literal l
  | argument i => exact .argument i.isLt i.isLt
  | function name arity body => exact .function name arity body

/-- Two calls of one host function go together, as far as failing, yielding related values and
making one more host function do. -/
theorem HostFunction.reply_rel (f : HostFunction) (together : Run Value → Run Value → Prop)
    (hview : ∀ v v', related v v' → v.view = v'.view)
    (hliteral : ∀ l, related (.literal l) (.literal l))
    (h : List.Forall₂ related arguments arguments') {paren paren' : Token}
    (hfail : ∀ message, together (Run.fail paren (.host message)) (Run.fail paren' (.host message)))
    (hpure : ∀ v v', related v v' → together (pure v) (pure v'))
    (hmake : ∀ name arity body,
      together (Run.makeHost name arity body) (Run.makeHost name arity body)) :
    together (Run.ofReply paren arguments (f.body (arguments.map Value.view)))
      (Run.ofReply paren' arguments' (f.body (arguments'.map Value.view))) := by
  have hsame := f.body_same hview h
  generalize f.body (arguments.map Value.view) = reply,
    f.body (arguments'.map Value.view) = reply' at hsame
  cases hsame with
  | failure message => exact hfail message
  | literal l => exact hpure _ _ (hliteral l)
  | argument hi hi' => exact hpure _ _ (h.get _ _)
  | function name arity body => exact hmake name arity body

end TreeWalk
