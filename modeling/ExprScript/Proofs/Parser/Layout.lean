import ExprScript.Proofs.Lexer
import ExprScript.Proofs.Parser.Acceptance
import ExprScript.Proofs.Syntax
import ExprScript.Reader

/-!
# Parsing without line numbers

The parser reads the lines of lexemes only to write them into trees and errors.  So it
makes no difference whether line numbers are taken off before parsing or after it:
`p.Unlined k q` says that `q` does on lexemes without lines what `p` does on the lexemes
as they are, when lines are taken off its values by `k`.  The combinators keep this, and
the grammar does with itself (`Parser.unlined_levels`).

* `Parser.unlined_programWithin`: programs parse the same without lines.
* `parse_unlined`: texts with the same tokens are parsed alike.
-/

namespace ExprScript

/-! ### Taking lines off -/

def Cursor.unlined (c : Cursor) : Cursor :=
  ⟨c.rest.map Lexeme.unlined, 0, c.left, by rw [List.length_map, c.left_eq]⟩

def ParseError.unlined : ParseError → ParseError
  | .unexpectedToken expected found _ => .unexpectedToken expected found 0
  | .unexpectedEnd expected _ => .unexpectedEnd expected 0
  | .notAnExpression found _ => .notAnExpression found 0
  | .nestingTooDeep limit _ => .nestingTooDeep limit 0
  | .invalidInteger text _ => .invalidInteger text 0

/-- A result without lines, when `k` takes them off values. -/
def unlinedResult {α β : Type} (k : α → β) : Except ParseError α → Except ParseError β
  | .ok a => .ok (k a)
  | .error e => .error e.unlined

def Outcome.unlined {α β : Type} (k : α → β) (o : Outcome α) : Outcome β :=
  ⟨unlinedResult k o.result, o.recorded.map ParseError.unlined, o.next.unlined⟩

namespace Cursor

/-- Places differ in lines only where their lexemes do. -/
theorem token?_unlined (c : Cursor) : c.unlined.token? = c.token? := by
  obtain ⟨rest, line, left, h⟩ := c
  cases rest with
  | nil => rfl
  | cons l rest => rfl

theorem currentLine_unlined (c : Cursor) : c.unlined.currentLine = 0 := by
  obtain ⟨rest, line, left, h⟩ := c
  cases rest with
  | nil => rfl
  | cons l rest => rfl

theorem advance_unlined (c : Cursor) : c.unlined.advance = c.advance.unlined := by
  obtain ⟨rest, line, left, h⟩ := c
  cases rest with
  | nil => rfl
  | cons l rest => rfl

end Cursor

namespace Parser

variable {α β γ δ : Type}

/-- The second parser does without lines what the first one does with them. -/
def Unlined (k : α → β) (p : Parser α) (q : Parser β) : Prop :=
  ∀ c : Cursor, q.run c.unlined = (p.run c).unlined k

/-! ### Combinators -/

theorem unlined_pure (k : α → β) (a : α) : Unlined k (pure a) (pure (k a)) :=
  fun _ => rfl

/-- What follows has the same lines taken off, if it does so where there is a value. -/
theorem followedBy_unlined {k : α → β} {m : γ → δ} {o : Outcome α} {f : α → Parser γ}
    {g : β → Parser δ}
    (hf : ∀ a, o.result = .ok a → (g (k a)).run o.next.unlined = ((f a).run o.next).unlined m) :
    followedBy (o.unlined k) g = (followedBy o f).unlined m := by
  cases hr : o.result with
  | error e => simp [followedBy, Outcome.unlined, hr, unlinedResult]
  | ok a => simp [followedBy, Outcome.unlined, hr, unlinedResult, hf a hr]

theorem Unlined.bind {k : α → β} {m : γ → δ} {p : Parser α} {q : Parser β} {f : α → Parser γ}
    {g : β → Parser δ} (hp : Unlined k p q) (hf : ∀ a, Unlined m (f a) (g (k a))) :
    Unlined m (p >>= f) (q >>= g) := by
  intro c
  rw [run_bind, run_bind, hp c]
  exact followedBy_unlined fun a _ => hf a _

theorem unlined_currentLine : Unlined (fun _ => 0) currentLine currentLine := by
  intro c
  simp [currentLine, Outcome.unlined, unlinedResult, c.currentLine_unlined]

theorem unlined_peek : Unlined id peek peek := by
  intro c
  simp [peek, Outcome.unlined, unlinedResult, c.token?_unlined]

theorem unlined_failAt {k : α → β} {e : Cursor → ParseError}
    (he : ∀ c, e c.unlined = (e c).unlined) : Unlined k (failAt e) (failAt e) := by
  intro c
  simp [failAt, Outcome.unlined, unlinedResult, he]

theorem unlined_nestingTooDeep (k : α → β) (limit : Nat) :
    Unlined k (nestingTooDeep limit) (nestingTooDeep limit) :=
  unlined_failAt fun c => by rw [c.currentLine_unlined]; rfl

theorem unlined_advance : Unlined id advance advance := by
  intro c
  simp [advance, Outcome.unlined, unlinedResult, c.advance_unlined]

theorem unlined_accept (expected : Expectation) (f : Token → Option α) :
    Unlined (fun r => (r.1, 0)) (accept expected f) (accept expected f) := by
  intro c
  have hadvance := c.advance_unlined
  obtain ⟨rest, line, left, h⟩ := c
  cases rest with
  | nil => rfl
  | cons l rest =>
    cases hf : f l.token with
    | none =>
      simp only [accept, Cursor.unlined, List.map_cons, Lexeme.unlined, hf]
      rfl
    | some a =>
      simp only [accept, Cursor.unlined, List.map_cons, Lexeme.unlined, hf]
      rfl

theorem unlined_expect (token : Token) : Unlined (fun _ => 0) (expect token) (expect token) :=
  (unlined_accept _ _).bind fun _ => unlined_pure _ _

theorem unlined_optional (token : Token) : Unlined id (optional token) (optional token) := by
  refine unlined_peek.bind fun next => ?_
  dsimp only [id]
  split
  · exact unlined_advance.bind fun _ => unlined_pure _ _
  · exact unlined_pure _ _

theorem unlined_identifier : Unlined Identifier.unlined identifier identifier :=
  (unlined_accept _ _).bind fun r => unlined_pure Identifier.unlined ⟨r.1, r.2⟩

theorem Unlined.many {k : α → β} {p : Parser (Option α)} {q : Parser (Option β)}
    (h : Unlined (Option.map k) p q) (hp : p.Advances) (hq : q.Advances) :
    Unlined (List.map k) (many p hp) (many q hq) := by
  intro c
  -- induction on what is left to read, which each repetition makes shorter
  induction hn : c.rest.length using Nat.strongRecOn generalizing c with
  | ind n ih =>
    subst hn
    rw [many_eq p, many_eq q, run_bind, run_bind, h c]
    refine followedBy_unlined fun o ho => ?_
    cases o with
    | none => rfl
    | some a =>
      have hlt := hp c a ho
      rw [Option.map_some, run_bind, run_bind, ih _ hlt _ rfl]
      exact followedBy_unlined fun as _ => rfl

theorem unlined_separator (closing : Token) :
    Unlined id (separator closing) (separator closing) :=
  (unlined_accept _ _).bind fun r => unlined_pure id r.1

theorem Unlined.commaSeparated {k : α → β} {p : Parser α} {q : Parser β} (h : Unlined k p q)
    (closing : Token) :
    Unlined (List.map k) (commaSeparated p closing) (commaSeparated q closing) := by
  have hitem : Unlined (Option.map k) (nextItem p closing) (nextItem q closing) := by
    refine (unlined_separator closing).bind fun more => ?_
    cases more with
    | false => exact unlined_pure (Option.map k) none
    | true => exact h.bind fun a => unlined_pure (Option.map k) (some a)
  refine (unlined_optional closing).bind fun close => ?_
  cases close with
  | true => exact unlined_pure (List.map k) []
  | false =>
    refine h.bind fun first => (hitem.many _ _).bind fun others => ?_
    exact unlined_pure (List.map k) (first :: others)

theorem Unlined.recovering {k : α → β} {p : Parser α} {q : Parser β} (h : Unlined k p q) :
    Unlined (Option.map k) (recovering p) (recovering q) := by
  intro c
  have hrun := h c
  rcases ho : p.run c with ⟨result, recorded, next⟩
  rw [ho] at hrun
  have hnext : (if next.left < c.left then next.unlined else c.advance.unlined) =
      (if next.left < c.left then next else c.advance).unlined :=
    (apply_ite Cursor.unlined _ _ _).symm
  cases result with
  | ok a =>
    simp only [Parser.recovering, hrun, ho, Outcome.unlined, unlinedResult, ← hnext,
      c.advance_unlined]
    rfl
  | error e =>
    simp only [Parser.recovering, hrun, ho, Outcome.unlined, unlinedResult, ← hnext,
      c.advance_unlined, List.map_append]
    rfl

theorem Unlined.statementsUntil {k : α → β} {p : Parser α} {q : Parser β} (h : Unlined k p q)
    (stop : Token → Bool) :
    Unlined (List.map k) (statementsUntil stop p) (statementsUntil stop q) := by
  have helement : Unlined (Option.map (Option.map k)) (element stop p) (element stop q) := by
    refine unlined_peek.bind fun next => ?_
    cases next with
    | none => exact unlined_pure (Option.map (Option.map k)) none
    | some t =>
      dsimp only [id]
      split
      · exact unlined_pure (Option.map (Option.map k)) none
      · split
        · refine unlined_advance.bind fun _ => ?_
          exact unlined_pure (Option.map (Option.map k)) (some none)
        · refine h.recovering.bind fun o => ?_
          exact unlined_pure (Option.map (Option.map k)) (some o)
  refine (helement.many _ _).bind fun os => ?_
  have hfilter : (os.map (Option.map k)).filterMap id = (os.filterMap id).map k := by
    rw [List.filterMap_map, List.map_filterMap]
    rfl
  rw [hfilter]
  exact unlined_pure (List.map k) _

/-! ### Phrases -/

section
variable {e : Precedence → Parser Expr} {b : Parser Block}

theorem unlined_startingWith (he : ∀ p, Unlined Expr.unlined (e p) (e p))
    (hb : Unlined Block.unlined b b) (form : StartForm) :
    Unlined Expr.unlined (startingWith e b form) (startingWith e b form) := by
  cases form with
  | identifier => exact unlined_identifier.bind fun id => unlined_pure Expr.unlined (.identifier id)
  | integer =>
    refine (unlined_accept _ _).bind fun r => ?_
    dsimp only
    split
    · exact unlined_pure Expr.unlined (.integer _ r.2)
    · exact fun _ => rfl
  | boolean =>
    exact (unlined_accept _ _).bind fun r => unlined_pure Expr.unlined (.boolean r.1 r.2)
  | prefixed =>
    refine (unlined_accept _ _).bind fun r => (he _).bind fun operand => ?_
    exact unlined_pure Expr.unlined (.prefixed r.1 operand r.2)
  | group =>
    refine (unlined_expect _).bind fun _ => (he _).bind fun inner => ?_
    exact (unlined_expect _).bind fun _ => unlined_pure Expr.unlined inner
  | conditional =>
    refine (unlined_expect _).bind fun line => (unlined_expect _).bind fun _ => ?_
    refine (he _).bind fun condition => (unlined_expect _).bind fun _ => ?_
    refine hb.bind fun consequence => (unlined_optional _).bind fun more => ?_
    cases more with
    | false => exact unlined_pure Expr.unlined (.conditional condition consequence none line)
    | true =>
      refine hb.bind fun alternative => ?_
      exact unlined_pure Expr.unlined (.conditional condition consequence (some alternative) line)
  | function =>
    refine (unlined_expect _).bind fun line => (unlined_expect _).bind fun _ => ?_
    refine (unlined_identifier.commaSeparated _).bind fun parameters => hb.bind fun body => ?_
    exact unlined_pure Expr.unlined (.function parameters body line)

theorem unlined_firstOperand (he : ∀ p, Unlined Expr.unlined (e p) (e p))
    (hb : Unlined Block.unlined b b) :
    Unlined Expr.unlined (firstOperand e b) (firstOperand e b) := by
  refine unlined_currentLine.bind fun line => unlined_peek.bind fun next => ?_
  cases next with
  | none => exact fun _ => rfl
  | some t =>
    dsimp only [id]
    split
    · exact unlined_advance.bind fun _ _ => rfl
    · exact unlined_startingWith he hb _

theorem unlined_continuedBy (he : ∀ p, Unlined Expr.unlined (e p) (e p)) (left : Expr)
    (form : ContinueForm) :
    Unlined Expr.unlined (continuedBy e left form) (continuedBy e left.unlined form) := by
  cases form with
  | infixed =>
    refine (unlined_accept _ _).bind fun r => (he _).bind fun right => ?_
    exact unlined_pure Expr.unlined (.infixed left r.1.1 right r.2)
  | call =>
    refine (unlined_expect _).bind fun line => ((he _).commaSeparated _).bind fun args => ?_
    rw [← Expr.unlinedAll_eq_map]
    exact unlined_pure Expr.unlined (.call left args line)

theorem unlined_stmt (he : ∀ p, Unlined Expr.unlined (e p) (e p)) :
    Unlined Stmt.unlined (stmt e) (stmt e) := by
  refine unlined_peek.bind fun next => ?_
  dsimp only [id]
  split
  · refine (unlined_expect _).bind fun line => unlined_identifier.bind fun target => ?_
    refine (unlined_expect _).bind fun _ => (he _).bind fun value => ?_
    exact (unlined_optional _).bind fun _ => unlined_pure Stmt.unlined (.bind target value line)
  · refine (unlined_expect _).bind fun line => (he _).bind fun value => ?_
    exact (unlined_optional _).bind fun _ => unlined_pure Stmt.unlined (.ret value line)
  · refine unlined_currentLine.bind fun line => (he _).bind fun value => ?_
    exact (unlined_optional _).bind fun _ => unlined_pure Stmt.unlined (.expr value line)

theorem unlined_bracedBlock (he : ∀ p, Unlined Expr.unlined (e p) (e p)) :
    Unlined Block.unlined (bracedBlock e) (bracedBlock e) := by
  refine (unlined_expect _).bind fun line => ?_
  refine ((unlined_stmt he).statementsUntil _).bind fun statements => ?_
  refine (unlined_expect _).bind fun _ => ?_
  rw [← Stmt.unlinedAll_eq_map]
  exact unlined_pure Block.unlined (.mk statements line)

end

/-! ### The grammar -/

theorem unlined_levels (limit n : Nat) :
    (∀ p, Unlined Expr.unlined (expressionAt limit n p) (expressionAt limit n p)) ∧
      (∀ p left, Unlined Expr.unlined (continueAt limit n p left)
        (continueAt limit n p left.unlined)) ∧
      Unlined Block.unlined (blockAt limit n) (blockAt limit n) := by
  induction n with
  | zero =>
    refine ⟨fun p => unlined_nestingTooDeep _ _, fun p left => ?_, unlined_nestingTooDeep _ _⟩
    refine unlined_peek.bind fun next => ?_
    dsimp only [id]
    split
    · exact unlined_pure Expr.unlined left
    · exact unlined_nestingTooDeep _ _
  | succ n ih =>
    obtain ⟨he, hc, hb⟩ := ih
    refine ⟨fun p => ?_, fun p left => ?_, unlined_bracedBlock he⟩
    · exact (unlined_firstOperand he hb).bind fun left => hc p left
    · refine unlined_peek.bind fun next => ?_
      dsimp only [id]
      split
      · exact unlined_pure Expr.unlined left
      · exact (unlined_continuedBy he left _).bind fun longer => hc p longer

/-- **Programs parse the same without lines.** -/
theorem unlined_programWithin (limit : Nat) :
    Unlined (List.map Stmt.unlined) (programWithin limit) (programWithin limit) :=
  (unlined_stmt (unlined_levels limit limit).1).statementsUntil _

end Parser

/-! ### Whole inputs -/

def Parsed.unlined (p : Parsed) : Parsed :=
  ⟨Stmt.unlinedAll p.program, p.errors.map ParseError.unlined⟩

theorem Cursor.unlined_start {lexemes : List Lexeme} (h : lexemes ≠ []) :
    (Cursor.start lexemes).unlined = .start (lexemes.map Lexeme.unlined) := by
  cases lexemes with
  | nil => exact absurd rfl h
  | cons l lexemes => exact Cursor.ext rfl rfl (List.length_map _).symm

/-- **Taking lines off commutes with parsing.** -/
theorem parseLexemesWithin_map_unlined (limit : Nat) {lexemes : List Lexeme} (h : lexemes ≠ []) :
    parseLexemesWithin limit (lexemes.map Lexeme.unlined) =
      (parseLexemesWithin limit lexemes).unlined := by
  rw [parseLexemesWithin, parseLexemesWithin, Reader.run, Reader.run]
  dsimp only [Reader.start]
  rw [← Cursor.unlined_start h, Parser.unlined_programWithin limit (.start lexemes)]
  rcases (Parser.programWithin limit).run (.start lexemes) with ⟨e | p, errors, next⟩
  · simp [Parsed.unlined, Stmt.unlinedAll, Outcome.unlined, unlinedResult]
  · simp [Parsed.unlined, Stmt.unlinedAll_eq_map, Outcome.unlined, unlinedResult]

/-- **Lexemes that differ in lines only are parsed alike.** -/
theorem parseLexemesWithin_unlined (limit : Nat) {lexemes lexemes' : List Lexeme}
    (h : lexemes.map Lexeme.unlined = lexemes'.map Lexeme.unlined) :
    (parseLexemesWithin limit lexemes).unlined = (parseLexemesWithin limit lexemes').unlined := by
  by_cases hnil : lexemes = []
  · rw [hnil, List.map_nil] at h
    rw [hnil, List.map_eq_nil_iff.mp h.symm]
  · have hnil' : lexemes' ≠ [] := by
      rintro rfl
      exact hnil (List.map_eq_nil_iff.mp h)
    rw [← parseLexemesWithin_map_unlined limit hnil, h, parseLexemesWithin_map_unlined limit hnil']

theorem parse_unlined {source source' : String}
    (h : (tokenize source).map Lexeme.token = (tokenize source').map Lexeme.token) :
    (parse source).unlined = (parse source').unlined := by
  refine parseLexemesWithin_unlined maxNesting ?_
  have hmap := congrArg (List.map fun t => (⟨t, 0⟩ : Lexeme)) h
  rwa [List.map_map, List.map_map] at hmap

end ExprScript
