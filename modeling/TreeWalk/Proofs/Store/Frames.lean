import TreeWalk.Store

/-! What opening a frame and defining a name do to all frames, and chains of frames. -/

namespace TreeWalk

namespace Bindings

variable {params : List Token} {arguments : List Value} {name : String} {v : Value}

theorem lookup_foldl_set {entries : List (Token × Value)} {b : Bindings}
    (h : (entries.foldl (fun b (p, v) => b.set p.lexeme v) b).lookup name = some v) :
    b.lookup name = some v ∨ ∃ t, (t, v) ∈ entries ∧ t.lexeme = name := by
  induction entries generalizing b with
  | nil => exact Or.inl h
  | cons entry entries ih =>
    rcases ih h with h | ⟨t, ht, hname⟩
    · rw [lookup_set] at h
      split at h
      · next hname =>
        cases h
        exact Or.inr ⟨entry.1, List.mem_cons_self, hname.symm⟩
      · exact Or.inl h
    · exact Or.inr ⟨t, List.mem_cons_of_mem _ ht, hname⟩

theorem isSome_lookup_foldl_set {entries : List (Token × Value)} {b : Bindings}
    (h : (b.lookup name).isSome = true ∨ ∃ t v, (t, v) ∈ entries ∧ t.lexeme = name) :
    ((entries.foldl (fun b (p, v) => b.set p.lexeme v) b).lookup name).isSome = true := by
  induction entries generalizing b with
  | nil =>
    rcases h with h | ⟨t, v, ht, -⟩
    · exact h
    · cases ht
  | cons entry entries ih =>
    refine ih ?_
    rw [lookup_set]
    rcases h with h | ⟨t, v, ht, hname⟩
    · left
      split
      · rfl
      · exact h
    · rcases List.mem_cons.mp ht with rfl | ht
      · left
        rw [if_pos hname.symm]
        rfl
      · exact Or.inr ⟨t, v, ht, hname⟩

/-- Only parameters are bound, each to one of the arguments. -/
theorem mem_of_lookup_ofArguments (h : (ofArguments params arguments).lookup name = some v) :
    v ∈ arguments ∧ ∃ t ∈ params, t.lexeme = name := by
  rcases lookup_foldl_set h with h | ⟨t, ht, hname⟩
  · cases h
  · obtain ⟨hparam, hargument⟩ := List.of_mem_zip ht
    exact ⟨hargument, t, hparam, hname⟩

/-- With as many arguments as parameters, every parameter is bound. -/
theorem isSome_lookup_ofArguments (hlen : arguments.length = params.length) {t : Token}
    (ht : t ∈ params) : ((ofArguments params arguments).lookup t.lexeme).isSome = true := by
  refine isSome_lookup_foldl_set (Or.inr ?_)
  obtain ⟨i, hi, rfl⟩ := List.getElem_of_mem ht
  have hi' : i < arguments.length := by omega
  refine ⟨params[i], arguments[i], ?_, rfl⟩
  refine List.mem_iff_getElem.mpr ⟨i, ?_, List.getElem_zip⟩
  rw [List.length_zip]
  omega

end Bindings

namespace Store

variable {store : Store} {bindings : Bindings} {enclosing : Option FrameId} {frame f g : Nat}
  {name other : String} {v : Value}

section Allocate

@[simp]
theorem nextFrame_allocate : (store.allocate bindings enclosing).nextFrame = store.nextFrame + 1 := by
  simp [nextFrame, allocate]

theorem getElem?_allocate :
    (store.allocate bindings enclosing).frames[f]? =
      if f = store.nextFrame then some ⟨bindings, enclosing⟩ else store.frames[f]? :=
  Array.getElem?_push

theorem enclosing?_allocate :
    (store.allocate bindings enclosing).enclosing? f =
      if f = store.nextFrame then enclosing else store.enclosing? f := by
  rw [enclosing?, getElem?_allocate]
  split <;> rfl

theorem get?_allocate :
    (store.allocate bindings enclosing).get? f name =
      if f = store.nextFrame then bindings.lookup name else store.get? f name := by
  rw [get?, getElem?_allocate]
  split <;> rfl

theorem enclosing?_allocate_of_lt (h : f < store.nextFrame) :
    (store.allocate bindings enclosing).enclosing? f = store.enclosing? f := by
  rw [enclosing?_allocate, if_neg (Nat.ne_of_lt h)]

theorem enclosing?_allocate_self :
    (store.allocate bindings enclosing).enclosing? store.nextFrame = enclosing := by
  rw [enclosing?_allocate, if_pos rfl]

theorem get?_allocate_of_lt (h : f < store.nextFrame) :
    (store.allocate bindings enclosing).get? f name = store.get? f name := by
  rw [get?_allocate, if_neg (Nat.ne_of_lt h)]

theorem get?_allocate_self :
    (store.allocate bindings enclosing).get? store.nextFrame name = bindings.lookup name := by
  rw [get?_allocate, if_pos rfl]

end Allocate

section Define

@[simp]
theorem nextFrame_define : (store.define frame name v).nextFrame = store.nextFrame := by
  simp [nextFrame, define]

theorem getElem?_define :
    (store.define frame name v).frames[f]? =
      if frame = f then store.frames[f]?.map (Frame.set name v) else store.frames[f]? := by
  rw [define, Array.getElem?_modify]

@[simp]
theorem enclosing?_define : (store.define frame name v).enclosing? f = store.enclosing? f := by
  rw [enclosing?, getElem?_define, enclosing?]
  split
  · cases store.frames[f]? <;> rfl
  · rfl

/-- Only the one name in the one frame changes. -/
theorem get?_define :
    (store.define frame name v).get? f other =
      if frame = f ∧ other = name ∧ f < store.nextFrame then some v else store.get? f other := by
  rw [get?, getElem?_define, get?]
  by_cases hf : frame = f
  · by_cases hlt : f < store.nextFrame
    · have hsome : store.frames[f]? = some store.frames[f] := Array.getElem?_eq_getElem hlt
      simp only [hf, hlt, hsome, ↓reduceIte, Option.map_some, Option.bind_some, Frame.get?,
        Frame.set, Bindings.lookup_set, true_and, and_true]
    · have hnone : store.frames[f]? = none := Array.getElem?_eq_none (Nat.not_lt.mp hlt)
      simp [hf, hlt, hnone]
  · simp [hf]

theorem get?_define_self (h : frame < store.nextFrame) :
    (store.define frame name v).get? frame name = some v := by
  rw [get?_define, if_pos ⟨rfl, rfl, h⟩]

theorem binds_define (h : store.binds name f = true) :
    (store.define frame other v).binds name f = true := by
  unfold binds at *
  rw [get?_define]
  split
  · rfl
  · exact h

end Define

theorem get?_eq_none_of_le (h : store.nextFrame ≤ f) : store.get? f name = none := by
  have hnone : store.frames[f]? = none := Array.getElem?_eq_none h
  rw [get?, hnone]
  rfl

theorem enclosing?_eq_none_of_le (h : store.nextFrame ≤ f) : store.enclosing? f = none := by
  have hnone : store.frames[f]? = none := Array.getElem?_eq_none h
  rw [enclosing?, hnone]
  rfl

theorem lt_nextFrame_of_enclosing? (h : store.enclosing? f = some g) : f < store.nextFrame := by
  refine Nat.lt_of_not_le fun hle => ?_
  rw [enclosing?_eq_none_of_le hle] at h
  cases h

/-- Every frame is younger than the frame around it. -/
def Nested (store : Store) : Prop :=
  ∀ f g : Nat, store.enclosing? f = some g → g < f

section Chains

theorem Nested.lt_nextFrame (hn : store.Nested) (h : store.enclosing? f = some g) :
    g < store.nextFrame :=
  Nat.lt_trans (hn f g h) (lt_nextFrame_of_enclosing? h)

theorem Nested.allocate (hn : store.Nested) (h : ∀ g, enclosing = some g → g < store.nextFrame) :
    (store.allocate bindings enclosing).Nested := by
  intro f g hg
  rw [enclosing?_allocate] at hg
  split at hg
  · next hf =>
    rw [hf]
    exact h g hg
  · exact hn f g hg

theorem Nested.define (hn : store.Nested) : (store.define frame name v).Nested := by
  intro f g hg
  rw [enclosing?_define] at hg
  exact hn f g hg

/-- A bound above the frame itself reaches to the end of the chain. -/
theorem Nested.chainUpTo_eq (hn : store.Nested) {n m : Nat} (hf : f < n) (hm : f < m) :
    store.chainUpTo n f = store.chainUpTo m f := by
  induction n generalizing f m with
  | zero => cases hf
  | succ n ih =>
    cases m with
    | zero => cases hm
    | succ m =>
      rw [chainUpTo, chainUpTo]
      cases he : store.enclosing? f with
      | none => rfl
      | some g =>
        have hlt := hn f g he
        exact congrArg _ (ih (by omega) (by omega))

theorem Nested.chain_of_enclosing? (hn : store.Nested) (h : store.enclosing? f = some g) :
    store.chain f = f :: store.chain g := by
  have hf : f < store.frames.size := lt_nextFrame_of_enclosing? h
  unfold chain
  rw [hn.chainUpTo_eq hf (show f < store.frames.size + 1 by omega), chainUpTo, h]

theorem chain_of_outermost (hf : f < store.nextFrame) (h : store.enclosing? f = none) :
    store.chain f = [f] := by
  have hpos : store.frames.size ≠ 0 := Nat.ne_zero_of_lt hf
  obtain ⟨n, hsize⟩ := Nat.exists_eq_succ_of_ne_zero hpos
  rw [chain, hsize, chainUpTo, h]

/-- From an outermost frame a name is looked up in that frame alone. -/
theorem get_of_outermost (hf : f < store.nextFrame) (h : store.enclosing? f = none)
    (name : Token) : store.get f name = store.readIn (some f) name := by
  rw [get, holder?, chain_of_outermost hf h, List.find?_singleton]
  cases hb : store.binds name.lexeme f with
  | true => rfl
  | false =>
    have hnone : store.get? f name.lexeme = none := by simpa [binds] using hb
    simp [readIn, hnone]

theorem assign_of_outermost (hf : f < store.nextFrame) (h : store.enclosing? f = none)
    (name : Token) (v : Value) : assign f name v store = writeIn (some f) name v store := by
  rw [assign, holder?, chain_of_outermost hf h, List.find?_singleton]
  cases hb : store.binds name.lexeme f with
  | true => rfl
  | false => simp [writeIn, Option.filter, hb]

/-- Stepping outward goes along the chain. -/
theorem Nested.getElem?_chain (hn : store.Nested) (hf : f < store.nextFrame) (d : Nat) :
    (store.chain f)[d]? = store.ancestor? f d := by
  induction d generalizing f with
  | zero =>
    cases he : store.enclosing? f with
    | none => rw [chain_of_outermost hf he, ancestor?, List.getElem?_cons_zero]
    | some g => rw [hn.chain_of_enclosing? he, ancestor?, List.getElem?_cons_zero]
  | succ d ih =>
    rw [ancestor?]
    cases he : store.enclosing? f with
    | none =>
      rw [chain_of_outermost hf he]
      rfl
    | some g =>
      rw [hn.chain_of_enclosing? he, List.getElem?_cons_succ]
      exact ih (hn.lt_nextFrame he)

end Chains

end Store

end TreeWalk
