import Mathlib.Data.Fintype.Card
import Mathlib.Order.Bounds.Basic
import TreeWalk.Proofs.Store.Frames

/-! Looking names up and changing them: what is found walking outward is found at the least distance
at which some frame binds the name, and a change is seen wherever the name is found in that frame
and nowhere else. -/

namespace TreeWalk

namespace Store

variable {store store' : Store} {frame f g : FrameId} {name other : String} {v : Value} {d k : Nat}

/-- Walking outward never comes back to a frame. -/
def Acyclic (store : Store) : Prop :=
  ∀ f k, store.ancestor? f (k + 1) ≠ some f

/-- The frame so many steps outward exists and binds the name. -/
def BoundAt (store : Store) (frame : FrameId) (name : String) (k : Nat) : Prop :=
  ∃ g, store.ancestor? frame k = some g ∧ store.binds name g = true

/-- The frame in which a name is found, at the least distance at which one binds it. -/
def FoundIn (store : Store) (frame : FrameId) (name : String) (g : FrameId) : Prop :=
  ∃ d, IsLeast {k | store.BoundAt frame name k} d ∧ store.ancestor? frame d = some g

/-- Two stores with the same frames, enclosed alike, that bind the same but for one name in one
frame, which the second binds to the value. -/
structure ChangedAt (store : Store) (frame : FrameId) (name : String) (v : Value)
    (store' : Store) : Prop where
  nextFrame : store'.nextFrame = store.nextFrame
  enclosing : ∀ f, store'.enclosing? f = store.enclosing? f
  changed : store'.get? frame name = some v
  kept : ∀ f other, f ≠ frame ∨ other ≠ name → store'.get? f other = store.get? f other

section Walking

theorem ancestor?_add (frame : FrameId) (i j : Nat) :
    store.ancestor? frame (i + j) = (store.ancestor? frame i).bind (store.ancestor? · j) := by
  induction i generalizing frame with
  | zero =>
    rw [Nat.zero_add]
    rfl
  | succ i ih =>
    rw [Nat.succ_add, ancestor?, ancestor?]
    cases store.enclosing? frame with
    | none => rfl
    | some outer => exact ih outer

/-- Short of the frame that is reached, every step stands in a frame of the store. -/
theorem exists_ancestor?_of_lt {i : Nat} (h : store.ancestor? frame k = some g) (hi : i < k) :
    ∃ f < store.nextFrame, store.ancestor? frame i = some f := by
  obtain ⟨j, rfl⟩ := Nat.exists_eq_add_of_lt hi
  rw [Nat.add_assoc, ancestor?_add] at h
  obtain ⟨f, hf, hrest⟩ := Option.bind_eq_some_iff.mp h
  obtain ⟨outer, houter, -⟩ := Option.bind_eq_some_iff.mp hrest
  exact ⟨f, lt_nextFrame_of_enclosing? houter, hf⟩

/-- No frame is met twice, so a walk takes fewer steps than there are frames. -/
theorem Acyclic.lt_nextFrame (h : store.Acyclic) (hk : store.ancestor? frame k = some g)
    (hg : g < store.nextFrame) : k < store.nextFrame := by
  have hstands : ∀ i : Fin (k + 1), ∃ f : Fin store.nextFrame,
      store.ancestor? frame i = some f.val := by
    intro i
    by_cases hi : i.val < k
    · obtain ⟨f, hf, hstep⟩ := exists_ancestor?_of_lt hk hi
      exact ⟨⟨f, hf⟩, hstep⟩
    · have hik : i.val = k := by omega
      exact ⟨⟨g, hg⟩, by rw [hik, hk]⟩
  choose stand hstand using hstands
  -- A frame that two steps share would be some steps outward of itself.
  have hdistinct : ∀ i j : Fin (k + 1), i < j → stand i ≠ stand j := by
    intro i j hij hsame
    obtain ⟨n, hn⟩ := Nat.exists_eq_add_of_lt hij
    have hj := hstand j
    rw [hn, Nat.add_assoc, ancestor?_add, hstand i, Option.bind_some, ← hsame] at hj
    exact h _ n hj
  have hinjective : Function.Injective stand := by
    intro i j hsame
    by_contra hne
    rcases Nat.lt_or_gt_of_ne (fun hval => hne (Fin.ext hval)) with hlt | hgt
    · exact hdistinct i j hlt hsame
    · exact hdistinct j i hgt hsame.symm
  have hcard := Fintype.card_le_of_injective stand hinjective
  rw [Fintype.card_fin, Fintype.card_fin] at hcard
  omega

/-- Walking outward comes back to no frame where every step goes down in some ranking. -/
theorem acyclic_of_rank (rank : FrameId → Nat)
    (h : ∀ f g, store.enclosing? f = some g → rank g < rank f) : store.Acyclic := by
  have hdown : ∀ k f g, store.ancestor? f (k + 1) = some g → rank g < rank f := by
    intro k
    induction k with
    | zero =>
      intro f g hg
      obtain ⟨outer, houter, hsame⟩ := Option.bind_eq_some_iff.mp hg
      cases hsame
      exact h f g houter
    | succ k ih =>
      intro f g hg
      obtain ⟨outer, houter, hrest⟩ := Option.bind_eq_some_iff.mp hg
      have hfirst := h f outer houter
      have hothers := ih outer g hrest
      omega
  intro f k hk
  exact Nat.lt_irrefl _ (hdown k f f hk)

/-- The stores of a run are acyclic: every frame is younger than the one around it. -/
theorem Nested.acyclic (hn : store.Nested) : store.Acyclic :=
  acyclic_of_rank id hn

theorem lt_nextFrame_of_binds (h : store.binds name g = true) : g < store.nextFrame := by
  by_contra hge
  rw [binds, get?_eq_none_of_le (Nat.le_of_not_lt hge)] at h
  cases h

end Walking

section Finding

theorem getElem?_chainUpTo (n : Nat) (frame : FrameId) (k : Nat) :
    (store.chainUpTo n frame)[k]? = if k < n then store.ancestor? frame k else none := by
  induction n generalizing frame k with
  | zero => rfl
  | succ n ih =>
    cases k with
    | zero => rfl
    | succ k =>
      rw [chainUpTo, List.getElem?_cons_succ, ancestor?]
      cases store.enclosing? frame with
      | none => exact (ite_self none).symm
      | some outer =>
        rw [ih, Option.bind_some]
        simp only [Nat.add_lt_add_iff_right]

theorem FoundIn.binds (h : store.FoundIn frame name g) : store.binds name g = true := by
  obtain ⟨d, ⟨⟨g', hg', hb⟩, -⟩, hg⟩ := h
  obtain rfl := Option.some.inj (hg'.symm.trans hg)
  exact hb

/-- A name that is bound at some distance is found. -/
theorem BoundAt.exists_foundIn (h : store.BoundAt frame name k) :
    ∃ g, store.FoundIn frame name g := by
  classical
  have hex : ∃ k, store.BoundAt frame name k := ⟨k, h⟩
  obtain ⟨g, hg, -⟩ := Nat.find_spec hex
  exact ⟨g, Nat.find hex, ⟨Nat.find_spec hex, fun _ hj => Nat.find_min' hex hj⟩, hg⟩

theorem FoundIn.unique {g' : FrameId} (h : store.FoundIn frame name g)
    (h' : store.FoundIn frame name g') : g = g' := by
  obtain ⟨d, hd, hg⟩ := h
  obtain ⟨d', hd', hg'⟩ := h'
  obtain rfl := hd.unique hd'
  exact Option.some.inj (hg.symm.trans hg')

/-- Walking outward stops in the frame at the least distance, and nowhere if no frame binds the
name. -/
theorem Acyclic.holder?_eq_some (h : store.Acyclic) (hfound : store.FoundIn frame name g) :
    store.holder? frame name = some g := by
  have hb := hfound.binds
  obtain ⟨d, ⟨-, hleast⟩, hg⟩ := hfound
  have hd : d < store.frames.size := h.lt_nextFrame hg (lt_nextFrame_of_binds hb)
  have hchain (i : Nat) (hi : i < store.frames.size) :
      (store.chain frame)[i]? = store.ancestor? frame i := by
    rw [chain, getElem?_chainUpTo, if_pos hi]
  have hat : (store.chain frame)[d]? = some g := (hchain d hd).trans hg
  obtain ⟨hlength, hget⟩ := List.getElem?_eq_some_iff.mp hat
  apply List.find?_eq_some_iff_getElem.mpr
  refine ⟨hb, d, hlength, hget, ?_⟩
  intro j hj
  have hjlength : j < (store.chain frame).length := Nat.lt_trans hj hlength
  have hstep : store.ancestor? frame j = some (store.chain frame)[j] := by
    rw [← hchain j (by omega), List.getElem?_eq_getElem hjlength]
  rw [Bool.not_eq_true', Bool.eq_false_iff]
  intro hearlier
  have hle : d ≤ j := hleast ⟨_, hstep, hearlier⟩
  omega

theorem holder?_eq_none (hnone : ∀ k, ¬ store.BoundAt frame name k) :
    store.holder? frame name = none := by
  apply List.find?_eq_none.mpr
  intro g hg hb
  obtain ⟨k, hk⟩ := List.mem_iff_getElem?.mp hg
  rw [chain, getElem?_chainUpTo] at hk
  split at hk
  · exact hnone k ⟨g, hk, hb⟩
  · cases hk

end Finding

section Reading

variable {x : Token}

theorem exists_get?_of_binds (h : store.binds name g = true) : ∃ u, store.get? g name = some u :=
  Option.isSome_iff_exists.mp h

theorem readIn_of_get? {u : Value} (h : store.get? g x.lexeme = some u) :
    store.readIn (some g) x = .ok u := by
  rw [readIn, Option.bind_some, h]

theorem readIn_eq_error {target : Option FrameId}
    (h : ∀ g, target = some g → store.binds x.lexeme g = false) :
    store.readIn target x = .error (undefined x) := by
  cases target with
  | none => rfl
  | some g =>
    have hnone : store.get? g x.lexeme = none := by simpa [binds] using h g rfl
    rw [readIn, Option.bind_some, hnone]

theorem writeIn_of_binds (h : store.binds x.lexeme g = true) :
    writeIn (some g) x v store = (.ok (), store.define g x.lexeme v) := by
  simp only [writeIn, Option.filter, h, if_true]

theorem writeIn_eq_error {target : Option FrameId}
    (h : ∀ g, target = some g → store.binds x.lexeme g = false) :
    writeIn target x v store = (.error (undefined x), store) := by
  cases target with
  | none => rfl
  | some g => simp [writeIn, Option.filter, h g rfl]

theorem Acyclic.get_of_foundIn (h : store.Acyclic) (hfound : store.FoundIn frame x.lexeme g) :
    store.get frame x = store.readIn (some g) x := by
  rw [get, h.holder?_eq_some hfound]

theorem get_eq_error (hnone : ∀ k, ¬ store.BoundAt frame x.lexeme k) :
    store.get frame x = .error (undefined x) := by
  rw [get, holder?_eq_none hnone]
  rfl

end Reading

section Changing

theorem ChangedAt.define (hb : store.binds name g = true) :
    store.ChangedAt g name v (store.define g name v) where
  nextFrame := nextFrame_define
  enclosing _ := enclosing?_define
  changed := get?_define_self (lt_nextFrame_of_binds hb)
  kept f other hother := by
    rw [get?_define, if_neg]
    rintro ⟨hf, hname, -⟩
    rcases hother with hne | hne
    · exact hne hf.symm
    · exact hne hname

namespace ChangedAt

theorem ancestor?_eq (h : store.ChangedAt g name v store') (frame : FrameId) (k : Nat) :
    store'.ancestor? frame k = store.ancestor? frame k := by
  induction k generalizing frame with
  | zero => rfl
  | succ k ih =>
    rw [ancestor?, ancestor?, h.enclosing]
    cases store.enclosing? frame with
    | none => rfl
    | some outer => exact ih outer

theorem acyclic (h : store.ChangedAt g name v store') (ha : store.Acyclic) : store'.Acyclic := by
  intro f k
  rw [h.ancestor?_eq]
  exact ha f k

/-- Where the name was bound in that frame already, the same names are bound as before. -/
theorem binds_eq (h : store.ChangedAt g name v store') (hb : store.binds name g = true)
    (other : String) (f : FrameId) : store'.binds other f = store.binds other f := by
  by_cases hslot : f = g ∧ other = name
  · obtain ⟨rfl, rfl⟩ := hslot
    rw [hb, Store.binds, h.changed]
    rfl
  · rw [Store.binds, Store.binds, h.kept f other (not_and_or.mp hslot)]

theorem boundAt_iff (h : store.ChangedAt g name v store') (hb : store.binds name g = true) :
    store'.BoundAt frame other k ↔ store.BoundAt frame other k := by
  simp only [BoundAt, h.ancestor?_eq, h.binds_eq hb]

theorem foundIn_iff (h : store.ChangedAt g name v store') (hb : store.binds name g = true) :
    store'.FoundIn frame other f ↔ store.FoundIn frame other f := by
  simp only [FoundIn, h.ancestor?_eq, h.boundAt_iff hb]

/-- A name found in the changed place has the new value. -/
theorem get_changed (h : store.ChangedAt g name v store') (hb : store.binds name g = true)
    (ha : store.Acyclic) {y : Token} (hname : y.lexeme = name)
    (hfound : store.FoundIn frame y.lexeme g) : store'.get frame y = .ok v := by
  have hfound' : store'.FoundIn frame y.lexeme g := (h.foundIn_iff hb).mpr hfound
  rw [(h.acyclic ha).get_of_foundIn hfound']
  apply readIn_of_get?
  rw [hname]
  exact h.changed

/-- A name found anywhere else, or not at all, is read as before. -/
theorem get_kept (h : store.ChangedAt g name v store') (hb : store.binds name g = true)
    (ha : store.Acyclic) {y : Token}
    (helsewhere : ¬ (y.lexeme = name ∧ store.FoundIn frame y.lexeme g)) :
    store'.get frame y = store.get frame y := by
  by_cases hbound : ∃ k, store.BoundAt frame y.lexeme k
  · obtain ⟨k, hk⟩ := hbound
    obtain ⟨f, hf⟩ := hk.exists_foundIn
    have hf' : store'.FoundIn frame y.lexeme f := (h.foundIn_iff hb).mpr hf
    have hne : f ≠ g ∨ y.lexeme ≠ name := by
      by_contra hboth
      simp only [not_or, not_ne_iff] at hboth
      exact helsewhere ⟨hboth.2, hboth.1 ▸ hf⟩
    rw [ha.get_of_foundIn hf, (h.acyclic ha).get_of_foundIn hf', readIn, readIn, Option.bind_some,
      Option.bind_some, h.kept f _ hne]
  · have hnone : ∀ k, ¬ store.BoundAt frame y.lexeme k := fun k hk => hbound ⟨k, hk⟩
    have hnone' : ∀ k, ¬ store'.BoundAt frame y.lexeme k := fun k hk =>
      hnone k ((h.boundAt_iff hb).mp hk)
    rw [get_eq_error hnone, get_eq_error hnone']

end ChangedAt

/-- No write ever makes a binding. -/
theorem binds_writeIn (target : Option FrameId) (x : Token) (v : Value) (other : String)
    (f : FrameId) : (writeIn target x v store).2.binds other f = store.binds other f := by
  cases target with
  | none => rfl
  | some g =>
    cases hb : store.binds x.lexeme g with
    | true =>
      rw [writeIn_of_binds hb]
      exact (ChangedAt.define hb).binds_eq hb other f
    | false =>
      rw [writeIn_eq_error]
      intro f' hf'
      rw [← Option.some.inj hf']
      exact hb

end Changing

section Laws

variable {x : Token}

theorem getAt_ok_iff : (∃ u, store.getAt frame k x = .ok u) ↔ store.BoundAt frame x.lexeme k := by
  constructor
  · rintro ⟨u, hu⟩
    by_contra hnot
    rw [getAt, readIn_eq_error] at hu
    · cases hu
    · intro g hg
      rw [Bool.eq_false_iff]
      exact fun hb => hnot ⟨g, hg, hb⟩
  · rintro ⟨g, hg, hb⟩
    obtain ⟨u, hu⟩ := exists_get?_of_binds hb
    exact ⟨u, by rw [getAt, hg, readIn_of_get? hu]⟩

theorem assignAt_of_boundAt (hg : store.ancestor? frame k = some g)
    (hb : store.binds x.lexeme g = true) :
    assignAt frame k x v store = (.ok (), store.define g x.lexeme v) := by
  rw [assignAt, hg, writeIn_of_binds hb]

theorem assignAt_of_not_boundAt (h : ¬ store.BoundAt frame x.lexeme k) :
    assignAt frame k x v store = (.error (undefined x), store) := by
  apply writeIn_eq_error
  intro g hg
  rw [Bool.eq_false_iff]
  exact fun hb => h ⟨g, hg, hb⟩

theorem assignAt_ok_iff :
    (assignAt frame k x v store).1 = .ok () ↔ store.BoundAt frame x.lexeme k := by
  constructor
  · intro hok
    by_contra hnot
    rw [assignAt_of_not_boundAt hnot] at hok
    cases hok
  · rintro ⟨g, hg, hb⟩
    rw [assignAt_of_boundAt hg hb]

/-- The laws of looking names up. A name is read where it is found first, and both ways of writing
it change that one place, which then shows wherever the name is found there. A name that is bound
nowhere outward is neither read nor written. Reading and writing at a distance succeed exactly
where the frame at that distance binds the name, and no write makes a binding. -/
theorem lookup_laws (h : store.Acyclic) (frame : FrameId) (x : Token) (v : Value) :
    (∀ d, IsLeast {k | store.BoundAt frame x.lexeme k} d →
      store.get frame x = store.getAt frame d x ∧
      ∃ g store', store.ancestor? frame d = some g ∧
        assign frame x v store = (.ok (), store') ∧
        assignAt frame d x v store = (.ok (), store') ∧
        store.ChangedAt g x.lexeme v store' ∧
        ∀ frame' y,
          (y.lexeme = x.lexeme ∧ store.FoundIn frame' y.lexeme g → store'.get frame' y = .ok v) ∧
          (¬ (y.lexeme = x.lexeme ∧ store.FoundIn frame' y.lexeme g) →
            store'.get frame' y = store.get frame' y)) ∧
    ((∀ d, ¬ store.BoundAt frame x.lexeme d) →
      store.get frame x = .error (undefined x) ∧
      assign frame x v store = (.error (undefined x), store)) ∧
    (∀ k, ((∃ u, store.getAt frame k x = .ok u) ↔ store.BoundAt frame x.lexeme k) ∧
      ((assignAt frame k x v store).1 = .ok () ↔ store.BoundAt frame x.lexeme k) ∧
      ((assignAt frame k x v store).1 ≠ .ok () → (assignAt frame k x v store).2 = store)) ∧
    ∀ f other, (assign frame x v store).2.binds other f = store.binds other f ∧
      ∀ k, (assignAt frame k x v store).2.binds other f = store.binds other f := by
  refine ⟨?found, ?missing, ?distance, ?bindings⟩
  case found =>
    intro d hd
    obtain ⟨g, hg, hb⟩ := hd.1
    have hfound : store.FoundIn frame x.lexeme g := ⟨d, hd, hg⟩
    have hchanged : store.ChangedAt g x.lexeme v (store.define g x.lexeme v) := .define hb
    have hget : store.get frame x = store.getAt frame d x := by
      rw [h.get_of_foundIn hfound, getAt, hg]
    have hassign : assign frame x v store = (.ok (), store.define g x.lexeme v) := by
      rw [assign, h.holder?_eq_some hfound, writeIn_of_binds hb]
    refine ⟨hget, g, store.define g x.lexeme v, hg, hassign, assignAt_of_boundAt hg hb, hchanged, ?_⟩
    intro frame' y
    constructor
    · rintro ⟨hname, hthere⟩
      exact hchanged.get_changed hb h hname hthere
    · intro helsewhere
      exact hchanged.get_kept hb h helsewhere
  case missing =>
    intro hnone
    constructor
    · exact get_eq_error hnone
    · rw [assign, holder?_eq_none hnone]
      rfl
  case distance =>
    intro k
    refine ⟨getAt_ok_iff, assignAt_ok_iff, ?_⟩
    intro hfails
    rw [assignAt_of_not_boundAt (fun hbound => hfails (assignAt_ok_iff.mpr hbound))]
  case bindings =>
    intro f other
    constructor
    · exact binds_writeIn _ x v other f
    · intro k
      exact binds_writeIn _ x v other f

/-- Two inner frames and the outer one they share, listed last; the second shadows its name. -/
def sharedOuter : Store :=
  ⟨#[⟨[], some 2⟩, ⟨[("a", .nil)], some 2⟩, ⟨[("a", .nil)], none⟩]⟩

theorem sharedOuter_acyclic : sharedOuter.Acyclic := by
  apply acyclic_of_rank (fun f => if f = 2 then 0 else 1)
  intro f g hg
  match f with
  | 0 | 1 =>
    cases hg
    decide
  | 2 => cases hg
  | n + 3 => cases hg

/-- A write from one inner frame shows in the frame around it and not past the shadowing. -/
theorem lookup_laws_sharedOuter :
    sharedOuter.Acyclic ∧ IsLeast {k | sharedOuter.BoundAt 0 "a" k} 1 ∧
      ∃ store', assign 0 ⟨.identifier, "a", 1⟩ (.literal (.bool true)) sharedOuter = (.ok (), store') ∧
        store'.get 2 ⟨.identifier, "a", 2⟩ = .ok (.literal (.bool true)) ∧
        store'.get 1 ⟨.identifier, "a", 3⟩ = .ok .nil := by
  have hleast : IsLeast {k | sharedOuter.BoundAt 0 "a" k} 1 := by
    refine ⟨⟨2, rfl, rfl⟩, ?_⟩
    intro k hk
    by_contra hlt
    have hzero : k = 0 := by omega
    subst hzero
    obtain ⟨g, hg, hb⟩ := hk
    cases hg
    cases hb
  obtain ⟨hfound, -⟩ :=
    lookup_laws sharedOuter_acyclic 0 ⟨.identifier, "a", 1⟩ (.literal (.bool true))
  obtain ⟨-, g, store', hg, hassign, -, -, hreads⟩ := hfound 1 hleast
  cases hg
  refine ⟨sharedOuter_acyclic, hleast, store', hassign, ?_, ?_⟩
  · apply (hreads 2 ⟨.identifier, "a", 2⟩).1
    refine ⟨rfl, 0, ⟨⟨2, rfl, rfl⟩, fun _ _ => Nat.zero_le _⟩, rfl⟩
  · rw [(hreads 1 ⟨.identifier, "a", 3⟩).2]
    · rfl
    · rintro ⟨-, hfar⟩
      have hnear : sharedOuter.FoundIn 1 "a" 1 :=
        ⟨0, ⟨⟨1, rfl, rfl⟩, fun _ _ => Nat.zero_le _⟩, rfl⟩
      cases hnear.unique hfar

end Laws

end Store

end TreeWalk
