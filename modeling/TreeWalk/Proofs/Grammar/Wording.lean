import TreeWalk.Proofs.Grammar.Derivation
import TreeWalk.Proofs.Grammar.Isolation

/-! How many of the words that start a statement are in the text of a statement. The tree tells, so
a text with fewer of them is not a text of the same statement. -/

namespace TreeWalk

namespace Stmt

mutual

/-- How many words a statement is written with that start a statement: one for every node but a
block and an expression. -/
def words : Stmt → Nat
  | expression _ => 0
  | print _ => 1
  | declare _ _ => 1
  | block body => wordsOfAll body
  | ifThen _ thenBranch => words thenBranch + 1
  | ifElse _ thenBranch elseBranch => words thenBranch + words elseBranch + 1
  | whileLoop _ body => words body + 1
  | function _ _ body => wordsOfAll body + 1
  | returnFrom _ _ => 1

def wordsOfAll : List Stmt → Nat
  | [] => 0
  | s :: ss => words s + wordsOfAll ss

end

/-- A loop has the words of its initializer and of its body, and its own. -/
theorem words_forLoop (initializer : Option Stmt) (condition increment : Option Expr)
    (body : Stmt) : (forLoop initializer condition increment body).words =
      wordsOfAll initializer.toList + body.words + 1 := by
  cases initializer <;> cases increment <;>
    simp [forLoop, words, wordsOfAll, Option.toList, Nat.add_assoc]

mutual

theorem words_map (f : NodeId → NodeId) (g : Token → Token) (s : Stmt) :
    (s.map f g).words = s.words := by
  match s with
  | expression _ | print _ | declare _ _ | returnFrom _ _ => rfl
  | block body => simp only [map, words, wordsOfAll_mapAll f g body]
  | ifThen _ thenBranch => simp only [map, words, words_map f g thenBranch]
  | ifElse _ thenBranch elseBranch =>
    simp only [map, words, words_map f g thenBranch, words_map f g elseBranch]
  | whileLoop _ body => simp only [map, words, words_map f g body]
  | function _ _ body => simp only [map, words, wordsOfAll_mapAll f g body]

theorem wordsOfAll_mapAll (f : NodeId → NodeId) (g : Token → Token) (ss : List Stmt) :
    wordsOfAll (mapAll f g ss) = wordsOfAll ss := by
  match ss with
  | [] => rfl
  | s :: ss => simp only [mapAll, wordsOfAll, words_map f g s, wordsOfAll_mapAll f g ss]

end

theorem words_unnumbered (s : Stmt) : s.unnumbered.words = s.words :=
  words_map _ _ s

theorem wordsOfAll_unnumbered (ss : List Stmt) :
    wordsOfAll (ss.map Stmt.unnumbered) = wordsOfAll ss := by
  have hmap := wordsOfAll_mapAll (fun _ => 0) id ss
  rwa [mapAll_eq_map] at hmap

end Stmt

namespace Grammar

/-- A token that neither starts a statement nor ends the text. -/
structure Plain (t : Token) : Prop where
  starts : t.startsStatement = false
  no_end : t.isEnd = false

namespace Plain

variable {t : Token}

theorem of_punctuator {p : Punctuator} (h : t.kind = .punctuator p) : Plain t := by
  constructor <;> simp [Token.startsStatement, Token.isKeyword, Token.isEnd, h, Kind.agrees]

theorem of_identifier (h : t.kind = .identifier) : Plain t := by
  constructor <;> simp [Token.startsStatement, Token.isKeyword, Token.isEnd, h, Kind.agrees]

theorem of_else (h : t.kind = .keyword .else_) : Plain t := by
  constructor <;> simp [Token.startsStatement, Token.isKeyword, Token.isEnd, h, Kind.agrees]

theorem of_constant {value : Literal} (h : Constant t value) : Plain t := by
  cases h with
  | number h | string h | true_ h | false_ h | nil h =>
    constructor <;> simp [Token.startsStatement, Token.isKeyword, Token.isEnd, h, Kind.agrees]

theorem of_operator {level : Level} (h : t.kind ∈ level.operators) : Plain t := by
  have hkinds : ∀ k ∈ level.operators, (∃ p, k = .punctuator p) ∨ k = .keyword .or_ ∨
      k = .keyword .and_ := by
    cases level <;> simp [Level.operators]
  rcases hkinds _ h with ⟨p, hp⟩ | hor | hand
  · exact of_punctuator hp
  · constructor <;> simp [Token.startsStatement, Token.isKeyword, Token.isEnd, hor, Kind.agrees]
  · constructor <;> simp [Token.startsStatement, Token.isKeyword, Token.isEnd, hand, Kind.agrees]

end Plain

/-- Tokens of which so many start a statement, and none ends the text. -/
structure Worded (ts : List Token) (count : Nat) : Prop where
  count : ts.countP Token.startsStatement = count
  no_end : ∀ t ∈ ts, t.isEnd = false

namespace Worded

variable {t : Token} {ts ts' : List Token} {m m' : Nat}

theorem nil : Worded [] 0 :=
  ⟨rfl, fun _ ht => absurd ht List.not_mem_nil⟩

theorem append (h : Worded ts m) (h' : Worded ts' m') : Worded (ts ++ ts') (m + m') where
  count := by rw [List.countP_append, h.count, h'.count]
  no_end t ht := (List.mem_append.mp ht).elim (h.no_end t) (h'.no_end t)

theorem plain (ht : Plain t) (h : Worded ts m) : Worded (t :: ts) m where
  count := by
    have hstarts : ¬t.startsStatement = true := by simp [ht.starts]
    rw [List.countP_cons_of_neg hstarts, h.count]
  no_end u hu := by
    rcases List.mem_cons.mp hu with rfl | hu
    · exact ht.no_end
    · exact h.no_end u hu

theorem punctuator {p : Punctuator} (ht : t.kind = .punctuator p) (h : Worded ts m) :
    Worded (t :: ts) m :=
  h.plain (.of_punctuator ht)

theorem identifier (ht : t.kind = .identifier) (h : Worded ts m) : Worded (t :: ts) m :=
  h.plain (.of_identifier ht)

/-- A word in front. -/
theorem keyword {k : Keyword} (ht : t.kind = .keyword k)
    (hk : k ∈ [Keyword.fun_, .var_, .for_, .if_, .while_, .print_, .return_])
    (h : Worded ts m) : Worded (t :: ts) (m + 1) where
  count := by
    have hstarts : t.startsStatement = true := by
      rw [Token.startsStatement, List.any_eq_true]
      exact ⟨k, List.mem_cons_of_mem _ hk, Token.isKeyword_iff.mpr ht⟩
    rw [List.countP_cons_of_pos hstarts, h.count]
  no_end u hu := by
    rcases List.mem_cons.mp hu with rfl | hu
    · rw [Bool.eq_false_iff, ne_eq, Token.isEnd_iff, ht]
      intro hkind
      cases hkind
    · exact h.no_end u hu

end Worded

mutual

/-- No word in an expression starts a statement. -/
theorem Phrase.worded {level : Level} {n n' : Nat} {ts : List Token} {e : Expr}
    (h : Phrase level n ts e n') : Worded ts 0 := by
  match h with
  | .tighter _ h => exact h.worded
  | .operation _ hop h h' => exact h.worded.append (h'.worded.plain (.of_operator hop))
  | .assignment hname hequals h => exact (h.worded.punctuator hequals).identifier hname
  | .unary hop h =>
    rcases hop with hop | hop
    · exact h.worded.punctuator hop
    · exact h.worded.punctuator hop
  | .emptyCall h hopening hclosing =>
    exact h.worded.append ((Worded.nil.punctuator hclosing).punctuator hopening)
  | .call h hopening hargs _ hclosing =>
    have hinside := hargs.worded.append (Worded.nil.punctuator hclosing)
    exact h.worded.append (hinside.punctuator hopening)
  | .constant hc => exact Worded.nil.plain (.of_constant hc)
  | .name hname => exact Worded.nil.identifier hname
  | .grouping hopening h hclosing =>
    exact (h.worded.append (Worded.nil.punctuator hclosing)).punctuator hopening

theorem Arguments.worded {n n' : Nat} {ts : List Token} {es : List Expr}
    (h : Arguments n ts es n') : Worded ts 0 := by
  match h with
  | .one h => exact h.worded
  | .more h hcomma h' => exact h.worded.append (h'.worded.punctuator hcomma)

end

theorem OptionalPhrase.worded {n n' : Nat} {ts : List Token} {e : Option Expr}
    (h : OptionalPhrase n ts e n') : Worded ts 0 := by
  cases h with
  | absent => exact .nil
  | present h => exact h.worded

theorem ExpressionStatement.worded {n n' : Nat} {ts : List Token} {s : Stmt}
    (h : ExpressionStatement n ts s n') : Worded ts s.words := by
  cases h with
  | intro h hsemicolon => exact h.worded.append (Worded.nil.punctuator hsemicolon)

theorem VariableDeclaration.worded {n n' : Nat} {ts : List Token} {s : Stmt}
    (h : VariableDeclaration n ts s n') : Worded ts s.words := by
  cases h with
  | bare hk hname hsemicolon =>
    have hafter := Worded.nil.punctuator hsemicolon
    exact (hafter.identifier hname).keyword hk (by simp)
  | initialized hk hname hequals h hsemicolon =>
    have hafter := h.worded.append (Worded.nil.punctuator hsemicolon)
    exact ((hafter.punctuator hequals).identifier hname).keyword hk (by simp)

theorem LoopStart.worded {n n' : Nat} {ts : List Token} {first : Option Stmt}
    (h : LoopStart n ts first n') : Worded ts (Stmt.wordsOfAll first.toList) := by
  cases h with
  | absent hsemicolon => exact Worded.nil.punctuator hsemicolon
  | declaration h => exact h.worded
  | expression h => exact h.worded

theorem Parameters.worded {ts params : List Token} (h : Parameters ts params) : Worded ts 0 := by
  induction h with
  | one hname => exact Worded.nil.identifier hname
  | more _ hcomma hname ih =>
    exact ih.append ((Worded.nil.identifier hname).punctuator hcomma)

theorem OptionalParameters.worded {ts params : List Token} (h : OptionalParameters ts params) :
    Worded ts 0 := by
  cases h with
  | absent => exact .nil
  | present h => exact h.worded

mutual

theorem Statement.worded {attachment : Attachment} {n n' : Nat} {ts : List Token} {s : Stmt}
    {dangling : Bool} (h : Statement attachment n ts s dangling n') : Worded ts s.words := by
  match h with
  | .expression h => exact h.worded
  | .print hk h hsemicolon =>
    have hafter := h.worded.append (Worded.nil.punctuator hsemicolon)
    exact hafter.keyword hk (by simp)
  | .returnFrom hk h hsemicolon =>
    have hafter := h.worded.append (Worded.nil.punctuator hsemicolon)
    exact hafter.keyword hk (by simp)
  | .whileLoop hk hopening h hclosing hbody =>
    have hafter := h.worded.append (hbody.worded.punctuator hclosing)
    rw [Nat.zero_add] at hafter
    exact (hafter.punctuator hopening).keyword hk (by simp)
  | .ifThen hk hopening h hclosing hthen =>
    have hafter := h.worded.append (hthen.worded.punctuator hclosing)
    rw [Nat.zero_add] at hafter
    exact (hafter.punctuator hopening).keyword hk (by simp)
  | .ifElse hk hopening h hclosing hthen _ halternative helse =>
    have hbranches := hthen.worded.append (helse.worded.plain (.of_else halternative))
    have hafter := h.worded.append (hbranches.punctuator hclosing)
    rw [Nat.zero_add] at hafter
    exact (hafter.punctuator hopening).keyword hk (by simp)
  | .forLoop hk hopening hstart hcondition hsemicolon hincrement hclosing hbody htree =>
    have hround := hincrement.worded.append (hbody.worded.punctuator hclosing)
    have hclauses := hcondition.worded.append (hround.punctuator hsemicolon)
    rw [Nat.zero_add, Nat.zero_add] at hclauses
    rw [loopTree_iff.mp htree, Stmt.words_forLoop]
    exact ((hstart.worded.append hclauses).punctuator hopening).keyword hk (by simp)
  | .block hopening hbody hclosing =>
    have hafter := hbody.worded.append (Worded.nil.punctuator hclosing)
    exact hafter.punctuator hopening

theorem Declaration.worded {attachment : Attachment} {n n' : Nat} {ts : List Token} {s : Stmt}
    {dangling : Bool} (h : Declaration attachment n ts s dangling n') : Worded ts s.words := by
  match h with
  | .function hk hname hopening hparams hclosing hopeningBrace hbody hclosingBrace =>
    have hinside := hbody.worded.append (Worded.nil.punctuator hclosingBrace)
    have hafter := hparams.worded.append ((hinside.punctuator hopeningBrace).punctuator hclosing)
    rw [Nat.zero_add] at hafter
    exact ((hafter.punctuator hopening).identifier hname).keyword hk (by simp)
  | .binding h => exact h.worded
  | .statement h => exact h.worded

/-- The words of a text are those that its trees tell. -/
theorem Declarations.worded {attachment : Attachment} {n n' : Nat} {ts : List Token}
    {body : List Stmt} (h : Declarations attachment n ts body n') :
    Worded ts (Stmt.wordsOfAll body) := by
  match h with
  | .nil => exact .nil
  | .cons h h' => exact h.worded.append h'.worded

end

end Grammar

end TreeWalk
