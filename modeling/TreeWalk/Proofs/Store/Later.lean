import TreeWalk.Proofs.Store.Frames

/-! Stores in the course of a run. Frames are only added and names only bound, so what was found
outward of a frame once is found there ever after. -/

namespace TreeWalk

namespace Store

/-- Frames are only added, and names only bound. -/
structure Later (store store' : Store) : Prop where
  le : store.nextFrame ≤ store'.nextFrame
  enclosing : ∀ f < store.nextFrame, store'.enclosing? f = store.enclosing? f
  binds : ∀ f name, store.binds name f = true → store'.binds name f = true

namespace Later

variable {store store' store'' : Store}

theorem refl (store : Store) : store.Later store :=
  ⟨Nat.le_refl _, fun _ _ => rfl, fun _ _ h => h⟩

theorem trans (h : store.Later store') (h' : store'.Later store'') : store.Later store'' := by
  refine ⟨Nat.le_trans h.le h'.le, fun f hf => ?_, fun f name hb => ?_⟩
  · rw [h'.enclosing f (Nat.lt_of_lt_of_le hf h.le), h.enclosing f hf]
  · exact h'.binds f name (h.binds f name hb)

theorem define (store : Store) (frame : FrameId) (name : String) (v : Value) :
    store.Later (store.define frame name v) :=
  ⟨Nat.le_of_eq nextFrame_define.symm, fun _ _ => enclosing?_define, fun _ _ h =>
    binds_define h⟩

theorem allocate (store : Store) (bindings : Bindings) (enclosing : Option FrameId) :
    store.Later (store.allocate bindings enclosing) := by
  refine ⟨by simp, fun f hf => enclosing?_allocate_of_lt hf, fun f name hb => ?_⟩
  have hf : f < store.nextFrame := by
    refine Nat.lt_of_not_le fun hle => ?_
    rw [Store.binds, get?_eq_none_of_le hle] at hb
    cases hb
  rw [Store.binds, get?_allocate_of_lt hf]
  exact hb

variable {frame g : FrameId}

theorem ancestor? (h : store.Later store') (hn : store.Nested) (hf : frame < store.nextFrame)
    (d : Nat) : store'.ancestor? frame d = store.ancestor? frame d := by
  induction d generalizing frame with
  | zero => rfl
  | succ d ih =>
    rw [Store.ancestor?, Store.ancestor?, h.enclosing frame hf]
    cases he : store.enclosing? frame with
    | none => rfl
    | some outer => exact ih (hn.lt_nextFrame he)

end Later

/-- What is found outward of a frame is a frame as well. -/
theorem Nested.ancestor?_lt {store : Store} (hn : store.Nested) {frame g : FrameId} {d : Nat}
    (hf : frame < store.nextFrame) (h : store.ancestor? frame d = some g) :
    g < store.nextFrame := by
  induction d generalizing frame with
  | zero =>
    cases h
    exact hf
  | succ d ih =>
    obtain ⟨outer, he, hg⟩ := Option.bind_eq_some_iff.mp h
    exact ih (hn.lt_nextFrame he) hg

/-- Any step outward leads to an older frame. -/
theorem Nested.ancestor?_succ_lt {store : Store} (hn : store.Nested) {frame g : FrameId}
    {k : Nat} (h : store.ancestor? frame (k + 1) = some g) : g < frame := by
  induction k generalizing frame with
  | zero =>
    obtain ⟨outer, he, hg⟩ := Option.bind_eq_some_iff.mp h
    cases hg
    exact hn frame g he
  | succ k ih =>
    obtain ⟨outer, he, hg⟩ := Option.bind_eq_some_iff.mp h
    exact Nat.lt_trans (ih hg) (hn frame outer he)

end Store

/-- Something that is said of every frame. -/
abbrev Labelling (β : Type) := FrameId → β

namespace Labelling

variable {β : Type} {store store' : Store} {c c' c'' : Labelling β}

/-- Two labellings say the same of the frames that a store has. -/
def Agree (store : Store) (c c' : Labelling β) : Prop :=
  ∀ f < store.nextFrame, c' f = c f

theorem Agree.refl : Agree store c c :=
  fun _ _ => rfl

theorem Agree.trans (h : Agree store c c') (hlater : store.Later store')
    (h' : Agree store' c' c'') : Agree store c c'' :=
  fun f hf => (h' f (Nat.lt_of_lt_of_le hf hlater.le)).trans (h f hf)

/-- A labelling that says in addition something of a new frame. -/
def extend (c : Labelling β) (frame : FrameId) (label : β) : Labelling β :=
  fun f => if f = frame then label else c f

theorem agree_extend (c : Labelling β) (store : Store) (label : β) :
    c.Agree store (c.extend store.nextFrame label) :=
  fun _ hf => if_neg (Nat.ne_of_lt hf)

end Labelling

end TreeWalk
