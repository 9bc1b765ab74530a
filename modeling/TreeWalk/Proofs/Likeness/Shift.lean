import TreeWalk.Proofs.Likeness.Execution
import TreeWalk.Proofs.Syntax.Shift
import TreeWalk.Session

/-! Machines that run the same code under other identities and on other lines end alike, up to
lines. -/

namespace TreeWalk

/-- Identities before `start` are kept, and those from there on go up. -/
def Shift.nodeFrom (σ : Shift) (start id : NodeId) : NodeId :=
  if id < start then id else σ.node id

theorem Shift.nodeFrom_of_lt {σ : Shift} {start id : NodeId} (h : id < start) :
    σ.nodeFrom start id = id :=
  if_pos h

theorem Shift.nodeFrom_of_le {σ : Shift} {start id : NodeId} (h : start ≤ id) :
    σ.nodeFrom start id = σ.node id :=
  if_neg (Nat.not_lt.mpr h)

theorem Shift.nodeFrom_lt {σ : Shift} {start id n : NodeId} (h : id < n) :
    σ.nodeFrom start id < σ.node n := by
  unfold nodeFrom
  split
  · exact Nat.lt_of_lt_of_le h (Nat.le_add_right _ _)
  · exact Nat.add_lt_add_right h _

/-- The same code, where identities from `start` on go up, and lines of some parts do. The
identities in use are those before `bound`. -/
def Likeness.shifted (σ : Shift) (start bound : NodeId) (hops : HopTable) : Likeness where
  node id id' d := id < bound ∧ id' = σ.nodeFrom start id ∧ hops[id]? = d
  line n n' := n' = n ∨ n' = n + σ.lines
  spelled _ n n' := n = n'

/-- The same report, if need be on a line that is so many further down. -/
inductive Diagnostic.Lowered (lines : Nat) : Diagnostic → Diagnostic → Prop where
  | runtime {t t' : Token} {cause} : t'.kind = t.kind → t'.lexeme = t.lexeme →
      t'.line = t.line ∨ t'.line = t.line + lines →
      Diagnostic.Lowered lines (.runtime t cause) (.runtime t' cause)
  | sink {cause} : Diagnostic.Lowered lines (.sink cause) (.sink cause)

/-- The same way to end, if need be with a report on a line that is so many further down. -/
inductive Outcome.Lowered (lines : Nat) : Outcome → Outcome → Prop where
  | done : Outcome.Lowered lines .done .done
  | failed {d d'} : d.Lowered lines d' → Outcome.Lowered lines (.failed d) (.failed d')
  | exhausted : Outcome.Lowered lines .exhausted .exhausted

theorem Diagnostic.Lowered.eq {d d' : Diagnostic} (h : d.Lowered 0 d') : d = d' := by
  cases h with
  | @runtime t t' cause hkind hlexeme hline =>
    obtain ⟨kind, lexeme, line⟩ := t
    obtain ⟨kind', lexeme', line'⟩ := t'
    obtain rfl : kind' = kind := hkind
    obtain rfl : lexeme' = lexeme := hlexeme
    obtain rfl : line' = line := by simpa using hline
    rfl
  | sink => rfl

theorem Outcome.Lowered.eq {o o' : Outcome} (h : o.Lowered 0 o') : o = o' := by
  cases h with
  | done | exhausted => rfl
  | failed hd => rw [hd.eq]

namespace Likeness

variable {σ : Shift} {start bound bound' : NodeId} {hops hops' : HopTable}

theorem shifted_faithful : (shifted σ start bound hops).Faithful := by
  intro sort n n' k k' hn hk
  rw [show n = n' from hn, show k = k' from hk]

/-- More identities come into use, with hop counts of their own, and lines begin to differ. -/
theorem shifted_le {σ' : Shift} (hlines : σ.lines = 0) (hids : σ'.ids = σ.ids)
    (hbound : bound ≤ bound') (hhops : ∀ id < bound, hops'[id]? = hops[id]?) :
    (shifted σ start bound hops).Le (shifted σ' start bound' hops') where
  node {id id' d} hid := by
    have hnode : σ'.nodeFrom start id = σ.nodeFrom start id := by
      rw [Shift.nodeFrom, Shift.node, hids]
      rfl
    exact ⟨Nat.lt_of_lt_of_le hid.1 hbound, hid.2.1.trans hnode.symm,
      (hhops id hid.1).trans hid.2.2⟩
  line {n n'} hn := by
    have hsame : n' = n ∨ n' = n + σ.lines := hn
    rw [hlines, Nat.add_zero, or_self] at hsame
    exact Or.inl hsame
  spelled hn := hn

/-- Code is alike to the same code with all its identities and lines further up. -/
theorem allAlike_shift {ss : List Stmt}
    (hids : ∀ id ∈ Stmt.idsOfAll ss, start ≤ id ∧ id < bound) :
    Stmt.AllAlike (shifted σ start bound hops) .plain ss (ss.map σ.stmt) := by
  have hmap : ss.map σ.stmt = Stmt.mapAll σ.node σ.token ss := (Stmt.mapAll_eq_map _ _ _).symm
  rw [hmap]
  have htoken (t : TreeWalk.Token) : (shifted σ start bound hops).Token t (σ.token t) :=
    ⟨rfl, rfl, Or.inr rfl⟩
  have hname (t : TreeWalk.Token) : (shifted σ start bound hops).Name false t (σ.token t) :=
    ⟨rfl, rfl, Or.inr rfl⟩
  refine Stmt.allAlike_map htoken (fun id hid => ?_) fun t _ => hname t
  obtain ⟨hstart, hbound⟩ := hids id hid
  exact ⟨_, hbound, (Shift.nodeFrom_of_le hstart).symm, rfl⟩

theorem Failure.lowered {d d' : Diagnostic} (h : (shifted σ start bound hops).Failure d d') :
    d.Lowered σ.lines d' := by
  cases h with
  | runtime ht => exact .runtime ht.kind.symm ht.lexeme.symm ht.line
  | sink => exact .sink
  | @undefined t t' sort ht =>
    have hspelled : t.lexeme = t'.lexeme := ht.spelled
    rw [Store.undefined, Store.undefined, hspelled]
    exact .runtime ht.kind.symm hspelled.symm ht.line

theorem Ends.lowered {q : Unit → Unit → Prop} {result result' : Except Fault Unit}
    (h : (shifted σ start bound hops).Ends q result result') :
    (Outcome.ofResult result).Lowered σ.lines (.ofResult result') := by
  cases h with
  | ok => exact .done
  | failure hd => exact .failed hd.lowered
  | exhausted => exact .exhausted

end Likeness

end TreeWalk
