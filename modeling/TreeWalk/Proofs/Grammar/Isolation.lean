import TreeWalk.Proofs.Grammar.Recovery
import TreeWalk.Proofs.Grammar.Unparsing

/-! Malformed statements are isolated. Chunks in a row and in nested blocks are parsed to what each
of them is parsed to alone, with their reports one after another. -/

namespace TreeWalk

open Rule

/-- The statement without its identities. -/
def Stmt.unnumbered (s : Stmt) : Stmt :=
  s.map (fun _ => 0) id

theorem Stmt.unnumbered_block (body : List Stmt) :
    (Stmt.block body).unnumbered = .block (body.map Stmt.unnumbered) := by
  rw [unnumbered, map, mapAll_eq_map]
  rfl

theorem Stmt.unnumbered_relabel {σ : Relabeling} (hline : σ.line = id) (s : Stmt) :
    (σ.stmt s).unnumbered = s.unnumbered := by
  have htoken : σ.token = id := funext (σ.token_eq hline)
  rw [unnumbered, Relabeling.stmt, map_map, htoken]
  rfl

/-- A chunk, or items in braces. -/
inductive Item where
  | chunk (c : SimpleChunk)
  | block (opening : { t : Token // t.kind = .punctuator .leftBrace }) (items : List Item)
      (closing : { t : Token // t.kind = .punctuator .rightBrace })

namespace Item

mutual

def tokens : Item → List Token
  | chunk c => c.tokens
  | block opening items closing => opening.1 :: (tokensOfAll items ++ [closing.1])

def tokensOfAll : List Item → List Token
  | [] => []
  | item :: items => tokens item ++ tokensOfAll items

end

mutual

/-- The same nesting, with the statements that each chunk is parsed to. -/
def statements (parse : List Token → Parsed) : Item → List Stmt
  | chunk c => (parse c.tokens).statements
  | block _ items _ => [.block (statementsOfAll parse items)]

def statementsOfAll (parse : List Token → Parsed) : List Item → List Stmt
  | [] => []
  | item :: items => statements parse item ++ statementsOfAll parse items

end

mutual

/-- The reports on all chunks, in order. -/
def errors (parse : List Token → Parsed) : Item → List Diagnostic
  | chunk c => (parse c.tokens).errors
  | block _ items _ => errorsOfAll parse items

def errorsOfAll (parse : List Token → Parsed) : List Item → List Diagnostic
  | [] => []
  | item :: items => errors parse item ++ errorsOfAll parse items

end

end Item

/-- Parsing of tokens that only end marks follow. -/
def parseBefore (ends : List { t : Token // t.isEnd = true }) (n : NodeId) (tokens : List Token) :
    Parsed :=
  parseProgram (tokens ++ ends.map Subtype.val) n

theorem Cursor.ofTokens_before {tokens : List Token} (htokens : ∀ t ∈ tokens, t.isEnd = false)
    (ends : List { t : Token // t.isEnd = true }) (n : NodeId) :
    ∃ stop, Cursor.ofTokens (tokens ++ ends.map Subtype.val) n = ⟨tokens, stop, [], n⟩ := by
  have hends : (ends.map Subtype.val).takeWhile (!·.isEnd) = [] := by
    cases ends with
    | nil => rfl
    | cons t ends => simp [t.2]
  refine ⟨stopOf (tokens ++ ends.map Subtype.val), ?_⟩
  rw [ofTokens, List.takeWhile_append_of_pos fun t ht => by simp [htokens t ht], hends,
    List.append_nil]

/-- Identities are drawn from `n` on, and there are reports already. -/
def Relabeling.later (n : NodeId) (prior : List Diagnostic) : Relabeling where
  node := (· + n)
  node_succ m := Nat.add_right_comm m 1 n
  line := id
  prior := prior

theorem Relabeling.later_cursor (n : NodeId) (prior : List Diagnostic) (tokens : List Token)
    (stop : Token) : (later n prior).cursor ⟨tokens, stop, [], 0⟩ = ⟨tokens, stop, prior, n⟩ := by
  have htoken : (later n prior).token = id := rfl
  have hnode : (later n prior).node 0 = n := Nat.zero_add n
  have hprior : (later n prior).prior = prior := rfl
  rw [cursor, htoken, hnode, hprior, List.map_id, List.map_nil, List.append_nil]
  rfl

/-- Where identities are drawn from makes no difference but to the identities. -/
theorem declarationUpTo_renumbered (depth : Nat) (tokens : List Token) (stop : Token) (n : NodeId) :
    (declarationUpTo depth ⟨tokens, stop, [], n⟩).1.map Stmt.unnumbered =
        (declarationUpTo depth ⟨tokens, stop, [], 0⟩).1.map Stmt.unnumbered ∧
      (declarationUpTo depth ⟨tokens, stop, [], n⟩).2.reports =
        (declarationUpTo depth ⟨tokens, stop, [], 0⟩).2.reports := by
  let σ : Relabeling := .later n []
  have hdiagnostic : σ.diagnostic = id := funext (σ.diagnostic_eq rfl)
  have hunnumbered : Stmt.unnumbered ∘ σ.stmt = Stmt.unnumbered :=
    funext (Stmt.unnumbered_relabel rfl)
  have hprior : σ.prior = [] := rfl
  have hmoves := (nested_moves (σ := σ) depth).2 ⟨tokens, stop, [], 0⟩
  rw [Relabeling.later_cursor] at hmoves
  rw [hmoves]
  simp only [Option.map_map, hunnumbered, Relabeling.cursor, hprior, hdiagnostic, List.map_id,
    List.nil_append, and_self]

/-- A program is read to the same statements and reports after other reports as alone. -/
theorem program_later (tokens : List Token) (stop : Token) (prior : List Diagnostic) (n : NodeId) :
    (program ⟨tokens, stop, prior, n⟩).1.map Stmt.unnumbered =
        (program ⟨tokens, stop, [], 0⟩).1.map Stmt.unnumbered ∧
      (program ⟨tokens, stop, prior, n⟩).2.reports =
        prior ++ (program ⟨tokens, stop, [], 0⟩).2.reports := by
  let σ : Relabeling := .later n prior
  have hdiagnostic : σ.diagnostic = id := funext (σ.diagnostic_eq rfl)
  have hunnumbered : Stmt.unnumbered ∘ σ.stmt = Stmt.unnumbered :=
    funext (Stmt.unnumbered_relabel rfl)
  have hprior : σ.prior = prior := rfl
  have hmoves := program_moves (σ := σ) ⟨tokens, stop, [], 0⟩
  rw [Relabeling.later_cursor] at hmoves
  rw [hmoves]
  simp only [List.map_map, hunnumbered, Relabeling.cursor, hprior, hdiagnostic, List.map_id,
    and_self]

namespace SimpleChunk

variable (c : SimpleChunk) (ends : List { t : Token // t.isEnd = true }) (k : NodeId)

/-- Parsing a chunk alone is reading one declaration. -/
theorem parseBefore_eq {o : Option Stmt} {ds : List Diagnostic} {k' : NodeId}
    (h : ∀ depth rest stop reports,
      declarationUpTo (depth + 1) ⟨c.tokens ++ rest, stop, reports, k⟩ =
        (o, ⟨rest, stop, reports ++ ds, k'⟩)) :
    parseBefore ends k c.tokens = ⟨o.toList, ds, k'⟩ := by
  obtain ⟨stop, hstop⟩ := Cursor.ofTokens_before (fun t => c.no_end) ends k
  have hlength : c.tokens.length = c.inside.length + 1 := by simp [tokens]
  have hopen : ¬c.tokens.head?.all (fun _ => false) = true := by
    simp [tokens]
  have hfirst : declaration ⟨c.tokens, stop, [], k⟩ = (o, ⟨[], stop, ds, k'⟩) := by
    have hread := h c.tokens.length [] stop []
    rwa [List.append_nil, List.nil_append] at hread
  have hothers (bound : Nat) : declarationsUntil (fun _ => false) declaration bound
      ⟨[], stop, ds, k'⟩ = ([], ⟨[], stop, ds, k'⟩) :=
    Takes.liftM_iff.mp (declarationsUntil_end rfl) stop ds
  have hprogram : program ⟨c.tokens, stop, [], k⟩ = (o.toList, ⟨[], stop, ds, k'⟩) := by
    rw [program, hlength, declarationsUntil_succ_apply, if_neg hopen, hfirst]
    simp only [hothers, List.append_nil]
  rw [parseBefore, parseProgram, hstop, hprogram]

/-- A chunk comes to the same in any place as alone, up to identities. -/
theorem declarationUpTo_isolated (n : NodeId) : ∃ (o : Option Stmt) (n' : NodeId),
    o.toList.map Stmt.unnumbered =
        (parseBefore ends k c.tokens).statements.map Stmt.unnumbered ∧
      ∀ depth rest stop reports,
        declarationUpTo (depth + 1) ⟨c.tokens ++ rest, stop, reports, n⟩ =
          (o, ⟨rest, stop, reports ++ (parseBefore ends k c.tokens).errors, n'⟩) := by
  obtain ⟨o, ds, n', -, h⟩ := c.exists_declarationUpTo n
  obtain ⟨o₁, ds₁, k', -, h₁⟩ := c.exists_declarationUpTo k
  have hn := declarationUpTo_renumbered 1 c.tokens c.mark n
  have hk := declarationUpTo_renumbered 1 c.tokens c.mark k
  have hread := h 0 [] c.mark []
  have hread₁ := h₁ 0 [] c.mark []
  rw [List.append_nil] at hread hread₁
  rw [hread] at hn
  rw [hread₁] at hk
  have hreports : ds = ds₁ := hn.2.trans hk.2.symm
  rw [c.parseBefore_eq ends k h₁, ← hreports]
  refine ⟨o, n', ?_, h⟩
  rw [← Option.toList_map, ← Option.toList_map, hn.1.trans hk.1.symm]

end SimpleChunk

namespace Item

/-- No item starts with a brace that closes a block. -/
theorem exists_head (item : Item) :
    ∃ t ts, item.tokens = t :: ts ∧ t.kind ≠ .punctuator .rightBrace := by
  cases item with
  | chunk c =>
    cases hinside : c.inside with
    | nil =>
      refine ⟨c.mark, [], ?_, by simp [c.before.mark]⟩
      rw [tokens, SimpleChunk.tokens, hinside, List.nil_append]
    | cons t ts =>
      refine ⟨t, ts ++ [c.mark], ?_, fun hbrace => ?_⟩
      · rw [tokens, SimpleChunk.tokens, hinside, List.cons_append]
      · exact c.plain t (by simp [hinside]) (by simp [hbrace])
  | block opening items closing =>
    refine ⟨opening.1, tokensOfAll items ++ [closing.1], ?_, by simp [opening.2]⟩
    rw [tokens]

theorem length_le_tokensOfAll (items : List Item) : items.length ≤ (tokensOfAll items).length := by
  induction items with
  | nil => exact Nat.le_refl _
  | cons item items ih =>
    obtain ⟨t, ts, htokens, -⟩ := item.exists_head
    simp only [tokensOfAll, htokens, List.length_append, List.length_cons]
    omega

mutual

theorem no_end (item : Item) : ∀ t ∈ item.tokens, t.isEnd = false := by
  match item with
  | chunk c => exact fun t ht => c.no_end (by rwa [tokens] at ht)
  | block opening items closing =>
    have hopening : opening.1.isEnd = false := by
      rw [Bool.eq_false_iff, ne_eq, Token.isEnd_iff, opening.2]
      simp
    have hclosing : closing.1.isEnd = false := by
      rw [Bool.eq_false_iff, ne_eq, Token.isEnd_iff, closing.2]
      simp
    intro t ht
    simp only [tokens, List.mem_cons, List.mem_append, List.not_mem_nil, or_false] at ht
    obtain rfl | hinside | rfl := ht
    · exact hopening
    · exact no_endOfAll items t hinside
    · exact hclosing

theorem no_endOfAll (items : List Item) : ∀ t ∈ tokensOfAll items, t.isEnd = false := by
  match items with
  | [] => exact fun t ht => absurd ht List.not_mem_nil
  | item :: items =>
    intro t ht
    rw [tokensOfAll] at ht
    exact (List.mem_append.mp ht).elim (item.no_end t) (no_endOfAll items t)

end

/-- Declarations are read to at least the depth that tokens up to `size` can have. -/
def DeepEnough (size : Nat) (declaration : StateM Cursor (Option Stmt)) : Prop :=
  ∀ s, ∃ depth, min size s.rest.length < depth ∧ declaration s = declarationUpTo depth s

variable (ends : List { t : Token // t.isEnd = true }) (k : NodeId)

mutual

/-- An item is read to its own end, to what its chunks come to alone. -/
theorem read (item : Item) {depth : Nat} (hdepth : item.tokens.length < depth)
    (rest : List Token) (stop : Token) (reports : List Diagnostic) (n : NodeId) :
    ∃ (o : Option Stmt) (n' : NodeId), o.toList.map Stmt.unnumbered =
        (item.statements (parseBefore ends k)).map Stmt.unnumbered ∧
      declarationUpTo depth ⟨item.tokens ++ rest, stop, reports, n⟩ =
        (o, ⟨rest, stop, reports ++ item.errors (parseBefore ends k), n'⟩) := by
  obtain ⟨depth, rfl⟩ := Nat.exists_eq_succ_of_ne_zero (Nat.ne_zero_of_lt hdepth)
  match item with
  | chunk c =>
    obtain ⟨o, n', hsame, hread⟩ := c.declarationUpTo_isolated ends k n
    exact ⟨o, n', hsame, hread depth rest stop reports⟩
  | block opening items closing =>
    simp only [tokens, List.length_cons, List.length_append, List.length_nil] at hdepth
    have hdeep : DeepEnough (tokensOfAll items).length (declarationUpTo depth) :=
      fun s => ⟨depth, by omega, rfl⟩
    have hbrace := Token.isPunctuator_iff.mpr closing.2
    have hmore : (closing.1 :: rest).head?.all (·.isPunctuator .rightBrace) = true := by
      simp [hbrace]
    have hbound : items.length ≤ (tokensOfAll items ++ closing.1 :: rest).length := by
      have := length_le_tokensOfAll items
      rw [List.length_append]
      omega
    obtain ⟨body, n', hsame, hbody⟩ := readAll items (fun t => Token.isPunctuator_iff.mp) hdeep
      hbound hmore stop reports n
    refine ⟨some (.block body), n', ?_, ?_⟩
    · simp [statements, Stmt.unnumbered_block, hsame]
    · have htokens : (block opening items closing).tokens ++ rest =
          opening.1 :: (tokensOfAll items ++ closing.1 :: rest) := by
        simp [tokens]
      rw [htokens, declarationUpTo_succ_apply]
      refine recovering_ok ((declarationWith_block opening.2 stop reports).trans ?_)
      rw [bind_apply, blockOf_apply closing.2 hbody]
      rfl

/-- So are items in a row, each in its turn. -/
theorem readAll (items : List Item) {closes : Token → Bool}
    (hcloses : ∀ t, closes t = true → t.kind = .punctuator .rightBrace)
    {declaration : StateM Cursor (Option Stmt)}
    (hdeep : DeepEnough (tokensOfAll items).length declaration) {bound : Nat}
    (hbound : items.length ≤ bound) {more : List Token} (hmore : more.head?.all closes = true)
    (stop : Token) (reports : List Diagnostic) (n : NodeId) :
    ∃ (ss : List Stmt) (n' : NodeId), ss.map Stmt.unnumbered =
        (statementsOfAll (parseBefore ends k) items).map Stmt.unnumbered ∧
      declarationsUntil closes declaration bound ⟨tokensOfAll items ++ more, stop, reports, n⟩ =
        (ss, ⟨more, stop, reports ++ errorsOfAll (parseBefore ends k) items, n'⟩) := by
  match items with
  | [] =>
    refine ⟨[], n, rfl, ?_⟩
    rw [errorsOfAll, List.append_nil, tokensOfAll, List.nil_append]
    exact Takes.liftM_iff.mp (declarationsUntil_end hmore) stop reports
  | item :: items =>
    obtain ⟨bound, rfl⟩ := Nat.exists_eq_succ_of_ne_zero (Nat.ne_zero_of_lt hbound)
    have htokens : tokensOfAll (item :: items) ++ more =
        item.tokens ++ (tokensOfAll items ++ more) := by
      rw [tokensOfAll, List.append_assoc]
    have hsize : (tokensOfAll (item :: items)).length =
        item.tokens.length + (tokensOfAll items).length := by
      rw [tokensOfAll, List.length_append]
    obtain ⟨depth, hdepth, hdeclaration⟩ :=
      hdeep ⟨item.tokens ++ (tokensOfAll items ++ more), stop, reports, n⟩
    rw [hsize, List.length_append] at hdepth
    have hitem : item.tokens.length < depth := by omega
    obtain ⟨o, n₁, hfirst, hread⟩ := item.read hitem (tokensOfAll items ++ more) stop reports n
    have hdeep' : DeepEnough (tokensOfAll items).length declaration := by
      intro s
      obtain ⟨depth, hdepth, hdeclaration⟩ := hdeep s
      exact ⟨depth, by omega, hdeclaration⟩
    obtain ⟨ss, n', hothers, hreadAll⟩ := readAll items hcloses hdeep'
      (Nat.le_of_succ_le_succ hbound) hmore stop
      (reports ++ item.errors (parseBefore ends k)) n₁
    -- No item begins with a brace that closes, so the row does not end before it.
    have hopen : ¬(item.tokens ++ (tokensOfAll items ++ more)).head?.all closes = true := by
      obtain ⟨t, ts, hhead, hbrace⟩ := item.exists_head
      rw [hhead]
      exact fun hyes => hbrace (hcloses t (by simpa using hyes))
    refine ⟨o.toList ++ ss, n', ?_, ?_⟩
    · rw [statementsOfAll, List.map_append, List.map_append, hfirst, hothers]
    · rw [htokens, declarationsUntil_succ_apply, if_neg hopen, hdeclaration, hread]
      simp only [hreadAll, errorsOfAll, List.append_assoc]

end

end Item

/-- Chunks in a row and in nested blocks are parsed to the same nesting of what each chunk is
parsed to alone, up to identities, and reported on one after another. A chunk alone is parsed to a
statement, or to nothing and then there is a report on it. -/
theorem parseProgram_isolated (items : List Item)
    (ends ends' : List { t : Token // t.isEnd = true }) (n n' : NodeId) :
    (parseBefore ends n (Item.tokensOfAll items)).statements.map Stmt.unnumbered =
        (Item.statementsOfAll (parseBefore ends' n') items).map Stmt.unnumbered ∧
      (parseBefore ends n (Item.tokensOfAll items)).errors =
        Item.errorsOfAll (parseBefore ends' n') items ∧
      ∀ c : SimpleChunk, (parseBefore ends' n' c.tokens).statements.length ≤ 1 ∧
        ((parseBefore ends' n' c.tokens).statements = [] →
          (parseBefore ends' n' c.tokens).errors ≠ []) := by
  obtain ⟨stop, hstop⟩ := Cursor.ofTokens_before (Item.no_endOfAll items) ends n
  have hdeep : Item.DeepEnough (Item.tokensOfAll items).length declaration :=
    fun s => ⟨s.rest.length + 1, by omega, rfl⟩
  have hcloses : ∀ t : Token, (fun _ => false) t = true → t.kind = .punctuator .rightBrace :=
    fun _ hf => absurd hf Bool.false_ne_true
  have hmore : ([] : List Token).head?.all (fun _ => false) = true := rfl
  obtain ⟨ss, k, hsame, hread⟩ := Item.readAll ends' n' items hcloses hdeep
    (Item.length_le_tokensOfAll items) hmore stop [] n
  rw [List.append_nil, List.nil_append] at hread
  have hparsed : parseBefore ends n (Item.tokensOfAll items) =
      ⟨ss, Item.errorsOfAll (parseBefore ends' n') items, k⟩ := by
    rw [parseBefore, parseProgram, hstop, program, hread]
  rw [hparsed]
  refine ⟨hsame, rfl, fun c => ?_⟩
  obtain ⟨o, ds, k', hnone, h⟩ := c.exists_declarationUpTo n'
  rw [c.parseBefore_eq ends' n' h]
  cases o with
  | none => exact ⟨Nat.zero_le 1, fun _ => hnone rfl⟩
  | some s => exact ⟨Nat.le_refl 1, fun hs => absurd hs (List.cons_ne_nil s [])⟩

end TreeWalk
