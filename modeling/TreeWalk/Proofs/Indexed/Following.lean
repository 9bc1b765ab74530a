import TreeWalk.Proofs.Grammar.Clean
import TreeWalk.Proofs.Indexed.Descent

/-! A descent and a rule of the grammar at the same place. They come out alike and at the same place
again, so what runs by index without a bound is what the rules compute from the tokens left. -/

namespace TreeWalk

/-- A reader stands where a cursor does: the tokens left are those from its index on, up to the end
mark at the index `last`, and it has neither moved nor looked past that. -/
structure Reader.At (tokens : List Token) (last : Nat) (reader : Reader) (s : Cursor) : Prop where
  left : s.rest ++ [s.stop] <+: tokens.drop reader.current
  stop : s.stop.isEnd = true
  inside : ∀ t ∈ s.rest, t.isEnd = false
  ends : reader.current + s.rest.length = last
  seen : ∀ i ∈ reader.seen, i ≤ last
  reports : reader.reports = s.reports
  nextId : reader.nextId = s.nextId

theorem Cursor.head_eq {s : Cursor} {t : Token} (ht : t ∈ s.rest.head?) : s.head = t := by
  rw [Cursor.head]
  cases hrest : s.rest with
  | nil =>
    rw [hrest] at ht
    cases ht
  | cons u us =>
    rw [hrest] at ht
    exact Option.some.inj ht

namespace Reader.At

variable {tokens : List Token} {last : Nat} {reader : Reader} {s : Cursor}

theorem head (h : reader.At tokens last s) : tokens[reader.current]? = some s.head := by
  obtain ⟨after, hleft⟩ := h.left
  have hdrop : (tokens.drop reader.current)[0]? = some s.head := by
    rw [← hleft, Cursor.head]
    cases s.rest <;> rfl
  rwa [List.getElem?_drop, Nat.add_zero] at hdrop

theorem isEnd_head (h : reader.At tokens last s) : s.head.isEnd = s.rest.isEmpty := by
  have hinside := h.inside
  rw [Cursor.head]
  cases hrest : s.rest with
  | nil => exact h.stop
  | cons t ts =>
    rw [hrest] at hinside
    exact hinside t List.mem_cons_self

theorem current_le (h : reader.At tokens last s) : reader.current ≤ last :=
  h.ends ▸ Nat.le_add_right ..

theorem look (h : reader.At tokens last s) {i : Nat} (hi : i ≤ last) :
    (reader.look i).At tokens last s :=
  { h with
    seen := fun j hj => by
      rcases List.mem_cons.mp hj with rfl | hj
      · exact hi
      · exact h.seen j hj }

/-- A token is passed over. -/
theorem move (h : reader.At tokens last s) {t : Token} {ts : List Token}
    (hrest : s.rest = t :: ts) : reader.move.At tokens last { s with rest := ts } where
  left := by
    obtain ⟨after, hleft⟩ := h.left
    refine ⟨after, ?_⟩
    rw [hrest] at hleft
    have hdrop : tokens.drop (reader.current + 1) = (tokens.drop reader.current).tail := by
      rw [List.tail_drop]
    change ts ++ [s.stop] ++ after = tokens.drop (reader.current + 1)
    rw [hdrop, ← hleft]
    rfl
  stop := h.stop
  inside u hu := h.inside u (by rw [hrest]; exact List.mem_cons_of_mem t hu)
  ends := by
    have hends := h.ends
    rw [hrest, List.length_cons] at hends
    rw [← hends]
    exact Nat.succ_add_eq_add_succ ..
  seen i hi := by
    rcases List.mem_cons.mp hi with rfl | hi
    · have hends := h.ends
      rw [hrest, List.length_cons] at hends
      omega
    · exact h.seen i hi
  reports := h.reports
  nextId := h.nextId

/-- The more tokens one has passed over, the fewer are left. -/
theorem length_le (h : reader.At tokens last s) {reader' : Reader} {s' : Cursor}
    (h' : reader'.At tokens last s') (hle : reader.current ≤ reader'.current) :
    s'.rest.length ≤ s.rest.length := by
  have := h.ends
  have := h'.ends
  omega

end Reader.At

namespace Descent

variable {α β : Type} {tokens : List Token} {last : Nat} {reader reader' : Reader} {s s' : Cursor}

theorem bind_of_ok {w : Descent α} {f : α → Descent β} {a : α}
    (h : w tokens reader = some (.ok a, reader')) :
    (w >>= f) tokens reader = f a tokens reader' := by
  change (w tokens reader).bind (fun outcome => ExceptT.bindCont (fun a => f a tokens) outcome.1
    outcome.2) = _
  rw [h]
  rfl

theorem bind_of_error {w : Descent α} {f : α → Descent β} {d : Diagnostic}
    (h : w tokens reader = some (.error d, reader')) :
    (w >>= f) tokens reader = some (.error d, reader') := by
  change (w tokens reader).bind (fun outcome => ExceptT.bindCont (fun a => f a tokens) outcome.1
    outcome.2) = _
  rw [h]
  rfl

theorem map_of_ok {w : Descent α} {g : α → β} {a : α}
    (h : w tokens reader = some (.ok a, reader')) :
    (g <$> w) tokens reader = some (.ok (g a), reader') := by
  rw [map_eq_pure_bind, bind_of_ok h]
  rfl

theorem discard_of_ok {w : Descent α} {a : α} (h : w tokens reader = some (.ok a, reader')) :
    discard w tokens reader = some (.ok (), reader') :=
  map_of_ok h

/-- At the place of a cursor, a descent and a rule come out alike and at the same place. If they
have to take something and do succeed, they have passed over a token. -/
def FollowsAt (tokens : List Token) (last : Nat) (strict : Bool) (w : Descent α) (r : Rule α)
    (reader : Reader) (s : Cursor) : Prop :=
  ∃ reader', w tokens reader = some ((r s).1, reader') ∧ reader'.At tokens last (r s).2 ∧
    reader.current ≤ reader'.current ∧
      (strict = true → ∀ a, (r s).1 = .ok a → reader.current < reader'.current)

/-- They do so at any place with fewer than `k` tokens left. -/
def Follows (k : Nat) (strict : Bool) (w : Descent α) (r : Rule α) : Prop :=
  ∀ tokens last reader s, s.rest.length < k → reader.At tokens last s →
    FollowsAt tokens last strict w r reader s

/-- They do so right after the token `t`. -/
def FollowsPast (t : Token) (k : Nat) (strict : Bool) (w : Descent α) (r : Rule α) : Prop :=
  ∀ tokens last reader s, s.rest.length < k → reader.At tokens last s →
    tokens[reader.current - 1]? = some t → FollowsAt tokens last strict w r reader s

/-- A descent that only looks around. -/
def Looks (tokens : List Token) (last : Nat) (w : Descent α) (a : α) (reader : Reader)
    (s : Cursor) : Prop :=
  ∃ reader', w tokens reader = some (.ok a, reader') ∧ reader'.At tokens last s ∧
    reader'.current = reader.current

namespace Looks

variable {w : Descent α} {f : α → Descent β} {a : α} {b : β}

theorem bind (hw : Looks tokens last w a reader s)
    (hf : ∀ reader', reader'.At tokens last s → Looks tokens last (f a) b reader' s) :
    Looks tokens last (w >>= f) b reader s := by
  obtain ⟨reader₁, hrun, hat, hcurrent⟩ := hw
  obtain ⟨reader₂, hrun', hat', hcurrent'⟩ := hf reader₁ hat
  exact ⟨reader₂, (bind_of_ok hrun).trans hrun', hat', hcurrent'.trans hcurrent⟩

theorem pure (h : reader.At tokens last s) : Looks tokens last (pure a) a reader s :=
  ⟨reader, rfl, h, rfl⟩

theorem tokenAt (h : reader.At tokens last s) {i : Nat} {t : Token} (hi : i ≤ last)
    (ht : tokens[i]? = some t) : Looks tokens last (tokenAt i) t reader s := by
  refine ⟨reader.look i, ?_, h.look hi, rfl⟩
  rw [Descent.tokenAt, ht]
  rfl

theorem peek (h : reader.At tokens last s) : Looks tokens last peek s.head reader s :=
  tokenAt h h.current_le h.head

theorem previous (h : reader.At tokens last s) {t : Token}
    (ht : tokens[reader.current - 1]? = some t) : Looks tokens last previous t reader s :=
  tokenAt h (Nat.le_trans (Nat.sub_le ..) h.current_le) ht

theorem isAtEnd (h : reader.At tokens last s) :
    Looks tokens last isAtEnd s.rest.isEmpty reader s := by
  rw [← h.isEnd_head]
  exact (peek h).bind fun _ hat => .pure hat

/-- The end mark is not looked at as a token. -/
theorem check (h : reader.At tokens last s) (k : Kind) :
    Looks tokens last (check k) (s.rest.head?.any fun t => t.kind.agrees k) reader s := by
  refine (isAtEnd h).bind fun _ hat => ?_
  cases hrest : s.rest with
  | nil => exact .pure hat
  | cons t ts =>
    have hhead : s.head = t := by rw [Cursor.head, hrest]; rfl
    exact (hhead ▸ peek hat).bind fun _ hat' => .pure hat'

theorem closes (h : reader.At tokens last s) (ks : List Kind) :
    Looks tokens last (closes ks) (s.rest.head?.all fun t => ks.any fun k => t.kind.agrees k)
      reader s := by
  induction ks generalizing reader with
  | nil =>
    have hend : s.rest.isEmpty = s.rest.head?.all fun t => [].any fun k => t.kind.agrees k := by
      cases s.rest <;> rfl
    exact hend ▸ isAtEnd h
  | cons k ks ih =>
    refine (check h k).bind fun reader' hat => ?_
    have hnext := ih hat
    cases hrest : s.rest with
    | nil =>
      rw [hrest] at hnext
      exact hnext
    | cons t ts =>
      rw [hrest] at hnext
      change Looks tokens last
        (if t.kind.agrees k = true then Pure.pure true else Descent.closes ks)
        (t.kind.agrees k || ks.any fun k => t.kind.agrees k) reader' s
      by_cases hk : t.kind.agrees k = true
      · rw [if_pos hk, hk]
        exact .pure hat
      · rw [if_neg hk, eq_false_of_ne_true hk]
        exact hnext

end Looks

/-- After a look a descent goes on as if there had been none. -/
theorem Looks.bind_follows {strict : Bool} {w : Descent α} {a : α} {f : α → Descent β} {r : Rule β}
    (hw : Looks tokens last w a reader s)
    (hf : ∀ reader', reader'.At tokens last s → reader'.current = reader.current →
      FollowsAt tokens last strict (f a) r reader' s) :
    FollowsAt tokens last strict (w >>= f) r reader s := by
  obtain ⟨reader₁, hrun, hat, hcurrent⟩ := hw
  obtain ⟨reader₂, hrun', hat', hle, hlt⟩ := hf reader₁ hat hcurrent
  rw [hcurrent] at hle hlt
  exact ⟨reader₂, (bind_of_ok hrun).trans hrun', hat', hle, hlt⟩

namespace FollowsAt

variable {strict : Bool} {w : Descent α} {r : Rule α}

theorem of_looks {a : α} (hw : Looks tokens last w a reader s) (hr : r s = (.ok a, s)) :
    FollowsAt tokens last false w r reader s := by
  obtain ⟨reader', hrun, hat, hcurrent⟩ := hw
  refine ⟨reader', ?_, ?_, Nat.le_of_eq hcurrent.symm, nofun⟩
  · rw [hr, hrun]
  · rw [hr]
    exact hat

theorem pure (h : reader.At tokens last s) (a : α) :
    FollowsAt tokens last false (pure a) (pure a) reader s :=
  of_looks (.pure h) rfl

theorem fail (h : reader.At tokens last s) (cause : SyntacticCause) :
    FollowsAt tokens last strict (fail cause) (Rule.fail cause : Rule α) reader s :=
  (Looks.peek h).bind_follows fun reader' hat _ =>
    ⟨reader', rfl, hat, Nat.le_refl _, fun _ _ => nofun⟩

theorem congr {r' : Rule α} (h : FollowsAt tokens last strict w r' reader s) (hr : r s = r' s) :
    FollowsAt tokens last strict w r reader s := by
  rwa [FollowsAt, ← hr] at h

theorem weaken (h : FollowsAt tokens last true w r reader s) :
    FollowsAt tokens last strict w r reader s := by
  obtain ⟨reader', hrun, hat, hle, hlt⟩ := h
  exact ⟨reader', hrun, hat, hle, fun _ => hlt rfl⟩

/-- The first part may have to take something, or what comes after it. -/
theorem bind {f : α → Descent β} {g : α → Rule β} (hw : FollowsAt tokens last strict w r reader s)
    (hf : ∀ a reader' s', reader.current ≤ reader'.current →
      (strict = true → reader.current < reader'.current) → reader'.At tokens last s' →
        FollowsAt tokens last false (f a) (g a) reader' s') :
    FollowsAt tokens last strict (w >>= f) (r >>= g) reader s := by
  obtain ⟨reader₁, hrun, hat, hle, hlt⟩ := hw
  cases hr : r s with
  | mk result s₁ =>
    rw [hr] at hrun hat hlt
    cases result with
    | error d =>
      have hstop : (r >>= g) s = (.error d, s₁) := by rw [Rule.bind_apply, hr]
      refine ⟨reader₁, ?_, ?_, hle, fun _ b hb => ?_⟩
      · rw [hstop]
        exact bind_of_error hrun
      · rw [hstop]
        exact hat
      · rw [hstop] at hb
        cases hb
    | ok a =>
      have hgo : (r >>= g) s = g a s₁ := by rw [Rule.bind_apply, hr]
      obtain ⟨reader₂, hrun', hat', hle', -⟩ :=
        hf a reader₁ s₁ hle (fun hstrict => hlt hstrict a rfl) hat
      refine ⟨reader₂, ?_, ?_, Nat.le_trans hle hle', fun hstrict b _ => ?_⟩
      · rw [hgo]
        exact (bind_of_ok hrun).trans hrun'
      · rw [hgo]
        exact hat'
      · exact Nat.lt_of_lt_of_le (hlt hstrict a rfl) hle'

end FollowsAt

namespace Follows

variable {k : Nat} {strict : Bool} {w w' : Descent α} {r r' : Rule α} {f : α → Descent β}
  {g : α → Rule β} {p : Token → Bool} {ks : List Kind}

theorem no_tokens : Follows 0 strict w r :=
  fun _ _ _ _ hlt => absurd hlt (Nat.not_lt_zero _)

theorem mono {k' : Nat} (h : Follows k strict w r) (hle : k' ≤ k) : Follows k' strict w r :=
  fun tokens last reader s hlt => h tokens last reader s (Nat.lt_of_lt_of_le hlt hle)

theorem weaken (h : Follows k true w r) : Follows k strict w r :=
  fun tokens last reader s hlt hat => (h tokens last reader s hlt hat).weaken

theorem past (h : Follows k strict w r) {t : Token} : FollowsPast t k strict w r :=
  fun tokens last reader s hlt hat _ => h tokens last reader s hlt hat

theorem pure (a : α) : Follows k false (pure a) (pure a) :=
  fun _ _ _ _ _ hat => .pure hat a

theorem fail (cause : SyntacticCause) : Follows k strict (fail cause) (Rule.fail cause : Rule α) :=
  fun _ _ _ _ _ hat => .fail hat cause

/-- Only what a rule does before an end mark matters. -/
theorem congr (h : Follows k strict w r') (hsame : ∀ s, s.stop.isEnd = true → r s = r' s) :
    Follows k strict w r := by
  intro tokens last reader s hlt hat
  exact (h tokens last reader s hlt hat).congr (hsame s hat.stop)

theorem bind (hw : Follows k strict w r) (hf : ∀ a, Follows k false (f a) (g a)) :
    Follows k strict (w >>= f) (r >>= g) := by
  intro tokens last reader s hlt hat
  refine (hw tokens last reader s hlt hat).bind fun a reader' s' hle _ hat' => ?_
  exact hf a tokens last reader' s' (Nat.lt_of_le_of_lt (hat.length_le hat' hle) hlt) hat'

theorem map {h : α → β} (hw : Follows k strict w r) : Follows k strict (h <$> w) (h <$> r) := by
  rw [map_eq_pure_bind, map_eq_pure_bind]
  exact hw.bind fun a => .pure (h a)

theorem discard (hw : Follows k strict w r) : Follows k strict (discard w) (discard r) := by
  have hmap : Follows k strict ((fun _ => PUnit.unit) <$> w) ((fun _ => PUnit.unit) <$> r) :=
    hw.map
  exact hmap

theorem ite {c : Prop} [Decidable c] (hw : Follows k strict w r) (hw' : Follows k strict w' r') :
    Follows k strict (if c then w else w') (if c then r else r') := by
  split
  · exact hw
  · exact hw'

theorem freshId : Follows k false freshId Rule.freshId := by
  intro tokens last reader s _ hat
  refine ⟨{ reader with nextId := reader.nextId + 1 }, ?_, ?_, Nat.le_refl _, nofun⟩
  · change some (Except.ok reader.nextId, _) = _
    rw [hat.nextId]
    rfl
  · exact { hat with nextId := congrArg (· + 1) hat.nextId }

theorem report (d : Diagnostic) : Follows k false (report d) (modify (·.report d)) := by
  intro tokens last reader s _ hat
  refine ⟨{ reader with reports := reader.reports ++ [d] }, rfl, ?_, Nat.le_refl _, nofun⟩
  exact { hat with reports := congrArg (· ++ [d]) hat.reports }

theorem complain (cause : SyntacticCause) :
    Follows k false (complain cause) (Rule.complain cause) := by
  intro tokens last reader s hlt hat
  exact (Looks.peek hat).bind_follows fun reader' hat' _ =>
    report (.syntactic s.head cause) tokens last reader' s hlt hat'

/-- A loop of a rule has as many rounds as there are tokens. -/
theorem length_bind {next : Nat → Rule α} (h : ∀ m < k, Follows (m + 1) strict w (next m)) :
    Follows k strict w (get >>= fun s => next s.rest.length) := by
  intro tokens last reader s hlt hat
  exact h s.rest.length hlt tokens last reader s (Nat.lt_succ_self _) hat

end Follows

theorem FollowsPast.previous {k : Nat} {strict : Bool} {t : Token} {f : Token → Descent α}
    {r : Rule α} (hf : Follows k strict (f t) r) : FollowsPast t k strict (previous >>= f) r := by
  intro tokens last reader s hlt hat ht
  exact (Looks.previous hat ht).bind_follows fun reader' hat' _ =>
    hf tokens last reader' s hlt hat'

section Taking

variable {k : Nat} {strict : Bool} {w w' : Descent α} {r r' : Rule α} {p : Token → Bool}
  {ks : List Kind}

/-- The token passed over is the one that a look back finds. -/
theorem advance_at {t : Token} {ts : List Token} (h : reader.At tokens last s)
    (hrest : s.rest = t :: ts) : ∃ reader', advance tokens reader = some (.ok t, reader') ∧
      reader'.At tokens last { s with rest := ts } ∧ reader'.current = reader.current + 1 ∧
        tokens[reader'.current - 1]? = some t := by
  obtain ⟨reader₁, hrun, hat, hcurrent⟩ := Looks.isAtEnd h
  have hmoved := hat.move hrest
  have ht : tokens[reader₁.move.current - 1]? = some t := by
    have hhead := hat.head
    rw [Cursor.head, hrest] at hhead
    exact hhead
  obtain ⟨reader₂, hrun', hat', hcurrent'⟩ := Looks.previous hmoved ht
  rw [hrest] at hrun
  refine ⟨reader₂, ?_, hat', ?_, hcurrent' ▸ ht⟩
  · rw [advance, bind_of_ok hrun]
    exact hrun'
  · rw [hcurrent', ← hcurrent]
    rfl

theorem discard_advance_at {t : Token} {ts : List Token} (h : reader.At tokens last s)
    (hrest : s.rest = t :: ts) :
    ∃ reader', discard advance tokens reader = some (.ok (), reader') ∧
      reader'.At tokens last { s with rest := ts } ∧ reader'.current = reader.current + 1 ∧
        tokens[reader'.current - 1]? = some t := by
  obtain ⟨reader', hrun, hafter⟩ := advance_at h hrest
  exact ⟨reader', discard_of_ok hrun, hafter⟩

theorem takes_at (h : reader.At tokens last s) {t : Token} {ts : List Token}
    (hrest : s.rest = t :: ts) (hp : (ks.any fun k => t.kind.agrees k) = true) :
    ∃ reader', takes ks tokens reader = some (.ok true, reader') ∧
      reader'.At tokens last { s with rest := ts } ∧ reader'.current = reader.current + 1 ∧
        tokens[reader'.current - 1]? = some t := by
  induction ks generalizing reader with
  | nil => cases hp
  | cons k ks ih =>
    obtain ⟨reader₁, hrun, hat, hcurrent⟩ := Looks.check h k
    rw [hrest] at hrun
    rw [takes, bind_of_ok hrun]
    change ∃ reader', (if t.kind.agrees k = true then _ else _ : Descent Bool) _ _ = _ ∧ _
    rw [← hcurrent]
    split
    · obtain ⟨reader₂, hrun', hafter⟩ := discard_advance_at hat hrest
      refine ⟨reader₂, ?_, hafter⟩
      rw [bind_of_ok hrun']
      rfl
    · next hk =>
      rw [List.any_cons, eq_false_of_ne_true hk, Bool.false_or] at hp
      exact ih hat hp

theorem Looks.takes (h : reader.At tokens last s)
    (hp : (s.rest.head?.any fun t => ks.any fun k => t.kind.agrees k) = false) :
    Looks tokens last (takes ks) false reader s := by
  induction ks generalizing reader with
  | nil => exact .pure h
  | cons k ks ih =>
    refine (Looks.check h k).bind fun reader' hat => ?_
    cases hrest : s.rest with
    | nil =>
      refine ih hat ?_
      rw [hrest]
      rfl
    | cons t ts =>
      rw [hrest] at hp
      simp only [List.head?_cons, Option.any_some, List.any_cons, Bool.or_eq_false_iff] at hp
      simp only [List.head?_cons, Option.any_some, hp.1, Bool.false_eq_true, ↓reduceIte]
      refine ih hat ?_
      rw [hrest]
      exact hp.2

/-- The kinds that a descent asks for are those that a rule does. -/
abbrev Asks (p : Token → Bool) (ks : List Kind) : Prop :=
  ∀ t, p t = ks.any fun k => t.kind.agrees k

theorem asks_one {k : Kind} : Asks (fun t => t.kind.agrees k) [k] :=
  fun _ => (Bool.or_false _).symm

theorem FollowsAt.advance_then {t : Token} {ts : List Token} (h : reader.At tokens last s)
    (hrest : s.rest = t :: ts) (hr : r s = r' { s with rest := ts })
    (hf : ∀ reader', reader'.At tokens last { s with rest := ts } →
      tokens[reader'.current - 1]? = some t →
        FollowsAt tokens last false w r' reader' { s with rest := ts }) :
    FollowsAt tokens last strict (discard advance >>= fun _ => w) r reader s := by
  obtain ⟨reader₁, hrun, hat₁, hcurrent, hprevious⟩ := discard_advance_at h hrest
  obtain ⟨reader₂, hrun', hat₂, hle, -⟩ := hf reader₁ hat₁ hprevious
  rw [hcurrent] at hle
  rw [FollowsAt, hr]
  exact ⟨reader₂, (bind_of_ok hrun).trans hrun', hat₂, Nat.le_of_succ_le hle, fun _ _ _ => hle⟩

/-- The token that is taken is behind the reader, and one token fewer is left. -/
theorem FollowsAt.takes_then {t : Token} {ts : List Token} (h : reader.At tokens last s)
    (hrest : s.rest = t :: ts) (hp : (ks.any fun k => t.kind.agrees k) = true)
    (hr : r s = r' { s with rest := ts })
    (hf : ∀ reader', reader'.At tokens last { s with rest := ts } →
      tokens[reader'.current - 1]? = some t →
        FollowsAt tokens last false w r' reader' { s with rest := ts }) :
    FollowsAt tokens last strict (takes ks >>= fun yes => if yes = true then w else w') r
      reader s := by
  obtain ⟨reader₁, hrun, hat₁, hcurrent, hprevious⟩ := takes_at h hrest hp
  obtain ⟨reader₂, hrun', hat₂, hle, -⟩ := hf reader₁ hat₁ hprevious
  rw [hcurrent] at hle
  rw [FollowsAt, hr]
  exact ⟨reader₂, (bind_of_ok hrun).trans hrun', hat₂, Nat.le_of_succ_le hle, fun _ _ _ => hle⟩

theorem FollowsAt.takes_else (h : reader.At tokens last s)
    (hp : (s.rest.head?.any fun t => ks.any fun k => t.kind.agrees k) = false)
    (hf : ∀ reader', reader'.At tokens last s → FollowsAt tokens last strict w' r reader' s) :
    FollowsAt tokens last strict (takes ks >>= fun yes => if yes = true then w else w') r
      reader s :=
  (Looks.takes h hp).bind_follows fun reader' hat' _ => hf reader' hat'

theorem asks_cons {k : Kind} (hp : Asks p ks) : Asks (fun t => t.kind.agrees k || p t) (k :: ks) :=
  fun t => congrArg (t.kind.agrees k || ·) (hp t)

/-- A choice by the next token. If it is taken, fewer tokens are left. -/
theorem Follows.takes_accept? {g : Option Token → Rule α} (hp : Asks p ks)
    (hyes : ∀ t, FollowsPast t k false w (g (some t))) (hno : Follows (k + 1) strict w' (g none)) :
    Follows (k + 1) strict (takes ks >>= fun yes => if yes = true then w else w')
      (Rule.accept? p >>= g) := by
  intro tokens last reader s hlt hat
  have hstays (hnone : (s.rest.head?.any fun t => ks.any fun k => t.kind.agrees k) = false)
      (hr : Rule.accept? p s = (.ok none, s)) : FollowsAt tokens last strict
        (takes ks >>= fun yes => if yes = true then w else w') (Rule.accept? p >>= g) reader s := by
    have hgo : (Rule.accept? p >>= g) s = g none s := by rw [Rule.bind_apply, hr]
    exact (FollowsAt.takes_else hat hnone fun reader' hat' =>
      hno tokens last reader' s hlt hat').congr hgo
  cases hrest : s.rest with
  | nil =>
    refine hstays (by rw [hrest]; rfl) ?_
    rw [Rule.accept?_apply, hrest]
  | cons t ts =>
    cases ht : p t with
    | false =>
      refine hstays ?_ ?_
      · rw [hrest, ← ht, hp t]
        rfl
      · rw [Rule.accept?_apply, hrest]
        simp only [ht, Bool.false_eq_true, ↓reduceIte]
    | true =>
      have hgo : (Rule.accept? p >>= g) s = g (some t) { s with rest := ts } := by
        rw [Rule.bind_apply, Rule.accept?_apply, hrest]
        simp only [ht, ↓reduceIte]
      have hfewer : ts.length < k := by
        rw [hrest] at hlt
        exact Nat.lt_of_succ_lt_succ hlt
      exact .takes_then hat hrest ((hp t).symm.trans ht) hgo fun reader' hat' hprevious =>
        hyes t tokens last reader' { s with rest := ts } hfewer hat' hprevious

theorem Follows.takes_accepts (hp : Asks p ks) (hyes : Follows k false w r)
    (hno : Follows (k + 1) strict w' r') :
    Follows (k + 1) strict (takes ks >>= fun yes => if yes = true then w else w')
      (Rule.accepts p >>= fun yes => if yes = true then r else r') := by
  unfold Rule.accepts
  simp only [bind_assoc, pure_bind]
  exact .takes_accept? hp (fun t => by simpa using hyes.past) (by simpa using hno)

/-- A choice after which it does not matter that fewer tokens are left. -/
theorem Follows.choice (hp : Asks p ks) (hyes : Follows k false w r)
    (hno : Follows k strict w' r') :
    Follows k strict (takes ks >>= fun yes => if yes = true then w else w')
      (Rule.accepts p >>= fun yes => if yes = true then r else r') := by
  cases k with
  | zero => exact .no_tokens
  | succ k => exact .takes_accepts hp (hyes.mono (Nat.le_succ k)) hno

/-- Without tokens none is taken. -/
theorem Follows.takes_last (hno : Follows 1 strict w' r) :
    Follows 1 strict (takes ks >>= fun yes => if yes = true then w else w') r := by
  intro tokens last reader s hlt hat
  have hrest : s.rest = [] := List.length_eq_zero_iff.mp (Nat.lt_one_iff.mp hlt)
  exact .takes_else hat (by rw [hrest]; rfl) fun reader' hat' =>
    hno tokens last reader' s hlt hat'

theorem Follows.consume {kind : Kind} {what : Expectation}
    (hp : ∀ t, p t = t.kind.agrees kind) :
    Follows k true (consume kind what) (Rule.expect p what) := by
  intro tokens last reader s _ hat
  refine (Looks.check hat kind).bind_follows fun reader' hat' _ => ?_
  have hfails (hr : Rule.accept? p s = (.ok none, s)) :
      FollowsAt tokens last true (Descent.fail (.expected what)) (Rule.expect p what) reader'
        s := by
    have hgo : Rule.expect p what s = (Rule.fail (.expected what) : Rule Token) s := by
      rw [Rule.expect, Rule.bind_apply, hr]
    exact (FollowsAt.fail hat' _).congr hgo
  cases hrest : s.rest with
  | nil =>
    refine hfails ?_
    rw [Rule.accept?_apply, hrest]
  | cons t ts =>
    simp only [List.head?_cons, Option.any_some, ← hp t]
    cases ht : p t with
    | false =>
      refine hfails ?_
      rw [Rule.accept?_apply, hrest]
      simp only [ht, Bool.false_eq_true, ↓reduceIte]
    | true =>
      have hgo : Rule.expect p what s = (.ok t, { s with rest := ts }) := by
        rw [Rule.expect, Rule.bind_apply, Rule.accept?_apply, hrest]
        simp only [ht, ↓reduceIte]
        rfl
      obtain ⟨reader₁, hrun, hat₁, hcurrent, -⟩ := advance_at hat' hrest
      have hlt : reader'.current < reader₁.current := hcurrent ▸ Nat.lt_succ_self _
      rw [FollowsAt, hgo]
      exact ⟨reader₁, hrun, hat₁, Nat.le_of_lt hlt, fun _ _ _ => hlt⟩

theorem Follows.check {kind : Kind} (hp : ∀ t, p t = t.kind.agrees kind) :
    Follows k false (check kind) (Rule.sees p) := by
  intro tokens last reader s _ hat
  refine .of_looks (Looks.check hat kind) ?_
  have hsame : p = fun t => t.kind.agrees kind := funext hp
  rw [hsame]
  rfl

end Taking

end Descent

end TreeWalk
