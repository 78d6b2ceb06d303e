import ExprScript.Parser.Grammar
import ExprScript.Proofs.Parser.Boundary

/-!
# Counting the levels of nesting

The parsers of `ExprScript.Parser.Grammar` are told how many levels are left to them.  The
limit can also be kept with one counter that all phrases share.  A phrase that may contain
itself raises it when it begins and sets it back when it ends, with a value or an error
(`Counting.nested`).  What continues an expression raises it too, and here nobody sets it
back (`Counting.continuing`): the expression around does so when it ends.  Where the counter
gets above the limit the parser fails, and leaves the counter as it is (`Counting.descend`).

So a `Counting` parser has a state that outlives its failures.  What this does to the input
is what the parsers of the grammar do: `x.Returns level p c` says that from this level and
place `x` does what `p` does, and comes back to the level; `x.Answers level p c` leaves open
where the counter ends, as the loop over what continues an expression does.  Each combinator
and each phrase keeps the first relation, and `nested` leads from the second to the first.

The recursion is on the number of phrases that may be open at once, and the loops are on the
number of rounds.  What happens when these run out is a parameter, `beyond`, and in the end
it makes no difference.

* `Counting.returns_phrases`: expressions and blocks, at every level.
* `Counting.returns_statement`, `Counting.returns_program`: statements and programs.
-/

namespace ExprScript

/-! ### Parsers that fail in a value -/

namespace Parser

variable {α : Type}

/-- Gives what the parser comes to, be it a value or an error, and does not fail. -/
def attempt (p : Parser α) : Parser (Except ParseError α) where
  run c := ⟨.ok (p.run c).result, (p.run c).recorded, (p.run c).next⟩
  suffix := p.suffix

def left : Parser Nat where
  run c := ⟨.ok c.left, [], c⟩
  suffix _ := List.suffix_refl _

/-- What is done behind a statement: its error is recorded, and a lexeme is skipped unless
fewer are left than before. -/
def recovered (before : Nat) (result : Except ParseError α) : Parser (Option α) where
  run c := ⟨.ok result.toOption, (match result with | .ok _ => [] | .error e => [e]),
    if c.left < before then c else c.advance⟩
  suffix c := by
    dsimp only
    split
    · exact List.suffix_refl _
    · exact c.advance_suffix

theorem run_recovering (p : Parser α) {c : Cursor} (hc : c.rest ≠ []) :
    (recovering p).run c =
      (left >>= fun before => p.attempt >>= fun result => recovered before result).run c := by
  have hnext : (if (p.run c).next.left < c.left then (p.run c).next else c.advance) =
      if (p.run c).next.left < c.left then (p.run c).next else (p.run c).next.advance := by
    split
    · rfl
    · next h =>
      rw [Cursor.left_eq, Cursor.left_eq, Nat.not_lt] at h
      exact (Cursor.advance_eq ((p.suffix c).eq_of_length_le h) hc).symm
  simp only [recovering, hnext]
  cases hr : (p.run c).result with
  | ok a => simp [run_bind, followedBy, left, attempt, recovered, hr, Except.toOption]
  | error e => simp [run_bind, followedBy, left, attempt, recovered, hr, Except.toOption]

end Parser

/-! ### The counter -/

/-- A parser with a counter, which is still there after a failure. -/
abbrev Counting (α : Type) := ExceptT ParseError (StateT Nat Parser) α

namespace Counting

variable {α β : Type} {limit level : Nat}

/-- Does what the parser does; the counter stays as it is. -/
def reading (p : Parser α) : Counting α :=
  ExceptT.mk (StateT.lift p.attempt)

/-- Enters one more level, which must not be above the limit. -/
def descend (limit : Nat) : Counting Unit := do
  modify (· + 1)
  if limit < (← get) then
    reading (Parser.nestingTooDeep limit)

/-- Runs a parser one level deeper and comes back to the level, whether or not it fails. -/
def nested (limit : Nat) (x : Counting α) : Counting α :=
  ExceptT.mk do
    let level ← get
    let result ← (descend limit >>= fun _ => x).run
    set level
    return result

def attempt (x : Counting α) : Counting (Except ParseError α) :=
  ExceptT.lift x.run

/-! ### Repetition -/

section

variable (beyond : (α : Type) → Counting α)

/-- Repeats a parser as long as it gives something, for a number of rounds. -/
def repeating (x : Counting (Option α)) : Nat → Counting (List α)
  | 0 => beyond (List α)
  | rounds + 1 => do
    match ← x with
    | none => return []
    | some a => return a :: (← repeating x rounds)

def many (x : Counting (Option α)) : Counting (List α) := do
  repeating beyond x ((← reading Parser.left) + 1)

def nextItem (item : Counting α) (closing : Token) : Counting (Option α) := do
  if ← reading (Parser.separator closing) then
    return some (← item)
  else
    return none

def commaSeparated (item : Counting α) (closing : Token) : Counting (List α) := do
  if ← reading (Parser.optional closing) then
    return []
  else
    let first ← item
    let others ← many beyond (nextItem item closing)
    return first :: others

def recovering (x : Counting α) : Counting (Option α) := do
  let before ← reading Parser.left
  let result ← x.attempt
  reading (Parser.recovered before result)

def element (stop : Token → Bool) (statement : Counting α) : Counting (Option (Option α)) := do
  match ← reading Parser.peek with
  | none => return none
  | some t =>
    if stop t then
      return none
    else if t = .semicolon then
      reading Parser.advance
      return some none
    else
      return some (← recovering statement)

def statementsUntil (stop : Token → Bool) (statement : Counting α) : Counting (List α) := do
  let elements ← many beyond (element stop statement)
  return elements.filterMap id

end

/-! ### Phrases -/

section

variable (beyond : (α : Type) → Counting α) (expression : Precedence → Counting Expr)
  (block : Counting Block)

def prefixedExpr : Counting Expr := do
  let (op, line) ← reading (Parser.accept .prefixOperator Token.prefixOp?)
  let operand ← expression .operand
  return .prefixed op operand line

def groupExpr : Counting Expr := do
  let _ ← reading (Parser.expect .leftParen)
  let e ← expression .lowest
  let _ ← reading (Parser.expect .rightParen)
  return e

def conditionalExpr : Counting Expr := do
  let line ← reading (Parser.expect .ifWord)
  let _ ← reading (Parser.expect .leftParen)
  let condition ← expression .lowest
  let _ ← reading (Parser.expect .rightParen)
  let consequence ← block
  if ← reading (Parser.optional .elseWord) then
    let alternative ← block
    return .conditional condition consequence (some alternative) line
  else
    return .conditional condition consequence none line

def functionExpr : Counting Expr := do
  let line ← reading (Parser.expect .fnWord)
  let _ ← reading (Parser.expect .leftParen)
  let parameters ← commaSeparated beyond (reading Parser.identifier) .rightParen
  let body ← block
  return .function parameters body line

def startingWith : StartForm → Counting Expr
  | .identifier => reading Parser.identifierExpr
  | .integer => reading Parser.integerExpr
  | .boolean => reading Parser.booleanExpr
  | .prefixed => prefixedExpr expression
  | .group => groupExpr expression
  | .conditional => conditionalExpr expression block
  | .function => functionExpr beyond block

def firstOperand : Counting Expr := do
  let line ← reading Parser.currentLine
  match ← reading Parser.peek with
  | none => reading (Parser.fail (.unexpectedEnd .expression line))
  | some t =>
    match t.startForm? with
    | none =>
      reading Parser.advance
      reading (Parser.fail (.notAnExpression t line))
    | some form => startingWith beyond expression block form

def infixedExpr (left : Expr) : Counting Expr := do
  let ((op, p), line) ← reading (Parser.accept .infixOperator fun t =>
    t.infixOp?.map fun op => (op, t.precedence))
  let right ← expression p
  return .infixed left op right line

def callExpr (callee : Expr) : Counting Expr := do
  let line ← reading (Parser.expect .leftParen)
  let arguments ← commaSeparated beyond (expression .lowest) .rightParen
  return .call callee arguments line

def continuedBy (left : Expr) : ContinueForm → Counting Expr
  | .infixed => infixedExpr expression left
  | .call => callExpr beyond expression left

/-- Reads all that continues the expression `left` with operators that bind more tightly
than `p`, one level deeper in each round. -/
def continuing (limit : Nat) (p : Precedence) : Nat → Expr → Counting Expr
  | 0, _ => beyond Expr
  | rounds + 1, left => do
    match Parser.continuation p (← reading Parser.peek) with
    | none => return left
    | some form =>
      descend limit
      let longer ← continuedBy beyond expression left form
      continuing limit p rounds longer

def bindStmt : Counting Stmt := do
  let line ← reading (Parser.expect .letWord)
  let target ← reading Parser.identifier
  let _ ← reading (Parser.expect .assign)
  let value ← expression .lowest
  let _ ← reading (Parser.optional .semicolon)
  return .bind target value line

def retStmt : Counting Stmt := do
  let line ← reading (Parser.expect .returnWord)
  let value ← expression .lowest
  let _ ← reading (Parser.optional .semicolon)
  return .ret value line

def exprStmt : Counting Stmt := do
  let line ← reading Parser.currentLine
  let value ← expression .lowest
  let _ ← reading (Parser.optional .semicolon)
  return .expr value line

def stmt : Counting Stmt := do
  match ← reading Parser.peek with
  | some .letWord => bindStmt expression
  | some .returnWord => retStmt expression
  | _ => exprStmt expression

def bracedBlock : Counting Block := do
  let line ← reading (Parser.expect .leftBrace)
  let statements ← statementsUntil beyond (fun t => t = .rightBrace) (stmt expression)
  let _ ← reading (Parser.expect .rightBrace)
  return .mk statements line

end

mutual

/-- Reads an expression, with so many phrases open at once. -/
def expressionWith (beyond : (α : Type) → Counting α) (limit : Nat) :
    Nat → Precedence → Counting Expr
  | 0, _ => beyond Expr
  | phrases + 1, p => nested limit do
    let left ← firstOperand beyond (expressionWith beyond limit phrases)
      (blockWith beyond limit phrases)
    continuing beyond (expressionWith beyond limit phrases) limit p (limit + 1) left

def blockWith (beyond : (α : Type) → Counting α) (limit : Nat) : Nat → Counting Block
  | 0 => beyond Block
  | phrases + 1 => nested limit (bracedBlock beyond (expressionWith beyond limit phrases))

end

section

variable (beyond : (α : Type) → Counting α)

-- each open phrase has a level of its own, and the one that is refused is open too
def expression (limit : Nat) (p : Precedence) : Counting Expr :=
  expressionWith beyond limit (limit + 1) p

def block (limit : Nat) : Counting Block :=
  blockWith beyond limit (limit + 1)

def statement (limit : Nat) : Counting Stmt :=
  stmt (expression beyond limit)

def program (limit : Nat) : Counting Program :=
  statementsUntil beyond (fun _ => false) (statement beyond limit)

end

/-! ### Doing what a parser does -/

/-- An outcome given as a value, with the level of the counter. -/
def counted (o : Outcome α) (level : Nat) : Outcome (Except ParseError α × Nat) :=
  ⟨.ok (o.result, level), o.recorded, o.next⟩

/-- From this level and place `x` does what `p` does, and comes back to the level. -/
def Returns (level : Nat) (x : Counting α) (p : Parser α) (c : Cursor) : Prop :=
  (x.run.run level).run c = counted (p.run c) level

/-- From this level and place `x` does what `p` does, and may end at another level. -/
def Answers (level : Nat) (x : Counting α) (p : Parser α) (c : Cursor) : Prop :=
  ∃ level', (x.run.run level).run c = counted (p.run c) level'

variable {x : Counting α} {p : Parser α} {f : α → Counting β} {g : α → Parser β} {c : Cursor}
  {o : Outcome α}

theorem Returns.answers (h : Returns level x p c) : Answers level x p c :=
  ⟨level, h⟩

theorem returns_pure (a : α) : Returns level (pure a) (pure a) c := rfl

theorem returns_reading (p : Parser α) : Returns level (reading p) p c := by
  show (p.attempt >>= fun r => pure (r, level)).run c = _
  rw [Parser.run_bind, Parser.followedBy_of_ok rfl, Parser.run_pure, List.append_nil]
  rfl

theorem run_bind_of_error {level' : Nat} {e : ParseError}
    (h : (x.run.run level).run c = counted o level') (he : o.result = .error e) :
    ((x >>= f).run.run level).run c = counted ⟨.error e, o.recorded, o.next⟩ level' := by
  show Parser.followedBy ((x.run.run level).run c) _ = _
  rw [h, counted, he, Parser.followedBy_of_ok rfl]
  show (⟨_, o.recorded ++ [], o.next⟩ : Outcome _) = _
  rw [List.append_nil]
  rfl

theorem run_bind_of_ok {level' : Nat} {a : α}
    (h : (x.run.run level).run c = counted o level') (ha : o.result = .ok a) :
    ((x >>= f).run.run level).run c =
      ⟨(((f a).run.run level').run o.next).result,
        o.recorded ++ (((f a).run.run level').run o.next).recorded,
        (((f a).run.run level').run o.next).next⟩ := by
  show Parser.followedBy ((x.run.run level).run c) _ = _
  rw [h, counted, ha, Parser.followedBy_of_ok rfl]
  rfl

/-- In a sequence the second part may end at any level, with an error or not. -/
theorem Answers.bind (hx : Returns level x p c)
    (hf : ∀ a, (p.run c).result = .ok a → Answers level (f a) (g a) (p.run c).next) :
    Answers level (x >>= f) (p >>= g) c := by
  rw [Answers, Parser.run_bind]
  cases hr : (p.run c).result with
  | error e => exact ⟨level, by rw [run_bind_of_error hx hr, Parser.followedBy_of_error hr]⟩
  | ok a =>
    obtain ⟨level', hl⟩ := hf a hr
    exact ⟨level', by rw [run_bind_of_ok hx hr, hl, Parser.followedBy_of_ok hr]; rfl⟩

theorem Returns.bind (hx : Returns level x p c)
    (hf : ∀ a, (p.run c).result = .ok a → Returns level (f a) (g a) (p.run c).next) :
    Returns level (x >>= f) (p >>= g) c := by
  rw [Returns, Parser.run_bind]
  cases hr : (p.run c).result with
  | error e => rw [run_bind_of_error hx hr, Parser.followedBy_of_error hr]
  | ok a =>
    rw [run_bind_of_ok hx hr, show _ = _ from hf a hr, Parser.followedBy_of_ok hr]
    rfl

/-! ### Levels -/

theorem run_descend (limit level : Nat) :
    (descend limit).run.run level =
      (if limit < level + 1 then reading (Parser.nestingTooDeep limit)
        else pure () : Counting Unit).run.run (level + 1) := rfl

/-- Below the limit there is one more level to enter. -/
theorem run_descend_bind (hl : level < limit) (f : Unit → Counting α) :
    ((descend limit >>= f).run.run level).run c = ((f ()).run.run (level + 1)).run c := by
  have hd : ((descend limit).run.run level).run c = counted ⟨.ok (), [], c⟩ (level + 1) := by
    rw [run_descend, if_neg (Nat.not_lt.mpr hl)]
    rfl
  rw [run_bind_of_ok hd rfl, List.nil_append]

/-- At the limit the counter goes above it, and stays there. -/
theorem run_descend_bind_limit (hl : limit ≤ level) (f : Unit → Counting α) :
    ((descend limit >>= f).run.run level).run c =
      counted ((Parser.nestingTooDeep limit).run c) (level + 1) := by
  have hd : ((descend limit).run.run level).run c =
      counted ((Parser.nestingTooDeep limit).run c) (level + 1) := by
    rw [run_descend, if_pos (Nat.lt_succ_of_le hl)]
    exact returns_reading _
  exact run_bind_of_error hd rfl

theorem answers_descend_bind (hl : level < limit) {f : Unit → Counting α}
    (h : Answers (level + 1) (f ()) p c) : Answers level (descend limit >>= f) p c := by
  obtain ⟨level', hl'⟩ := h
  exact ⟨level', (run_descend_bind hl f).trans hl'⟩

/-- What is nested comes back to its level, wherever it ends inside. -/
theorem run_nested {level' : Nat}
    (h : ((descend limit >>= fun _ => x).run.run level).run c = counted o level') :
    ((nested limit x).run.run level).run c = counted o level := by
  show Parser.followedBy (((descend limit >>= fun _ => x).run.run level).run c)
    (fun r => (set level >>= fun _ => pure r.1 : StateT Nat Parser _).run r.2) = _
  rw [h, counted, Parser.followedBy_of_ok rfl]
  show (⟨_, o.recorded ++ [], o.next⟩ : Outcome _) = _
  rw [List.append_nil]
  rfl

theorem returns_nested (hl : level < limit) (h : Answers (level + 1) x p c) :
    Returns level (nested limit x) p c := by
  obtain ⟨_, h'⟩ := answers_descend_bind hl (f := fun _ => x) h
  exact run_nested h'

theorem returns_nested_limit (hl : limit ≤ level) (x : Counting α) :
    Returns level (nested limit x) (Parser.nestingTooDeep limit) c :=
  run_nested (run_descend_bind_limit hl fun _ => x)

/-! ### Repetition with a counter -/

variable {beyond : (α : Type) → Counting α}

/-- As many rounds as there are lexemes left, and one to see the end, are enough. -/
theorem returns_repeating {x : Counting (Option α)} {p : Parser (Option α)}
    (h : ∀ c, Returns level x p c) (hp : p.Advances) {rounds : Nat}
    (hr : c.rest.length < rounds) : Returns level (repeating beyond x rounds) (p.many hp) c := by
  induction rounds generalizing c with
  | zero => exact absurd hr (Nat.not_lt_zero _)
  | succ rounds ih =>
    rw [repeating, Parser.many_eq]
    refine (h c).bind fun o ho => ?_
    cases o with
    | none => exact returns_pure _
    | some a =>
      have hlt := hp c a ho
      exact (ih (by omega)).bind fun _ _ => returns_pure _

theorem returns_many {x : Counting (Option α)} {p : Parser (Option α)}
    (h : ∀ c, Returns level x p c) (hp : p.Advances) :
    Returns level (many beyond x) (p.many hp) c := by
  have hleft : Returns level (reading Parser.left) Parser.left c := returns_reading _
  have hrounds : c.rest.length < c.left + 1 := by rw [c.left_eq]; exact Nat.lt_succ_self _
  rw [Returns, many, run_bind_of_ok hleft rfl]
  exact returns_repeating h hp hrounds

theorem returns_nextItem (h : ∀ c, Returns level x p c) (closing : Token) :
    Returns level (nextItem x closing) (Parser.nextItem p closing) c := by
  refine (returns_reading _).bind fun more _ => ?_
  cases more with
  | true => exact (h _).bind fun _ _ => returns_pure _
  | false => exact returns_pure _

theorem returns_commaSeparated (h : ∀ c, Returns level x p c) (closing : Token) :
    Returns level (commaSeparated beyond x closing) (Parser.commaSeparated p closing) c := by
  refine (returns_reading _).bind fun empty _ => ?_
  cases empty with
  | true => exact returns_pure _
  | false =>
    exact (h _).bind fun _ _ =>
      (returns_many (fun c => returns_nextItem h closing) _).bind fun _ _ => returns_pure _

theorem returns_attempt (h : Returns level x p c) : Returns level x.attempt p.attempt c := by
  show (x.run.run level >>= fun r => pure (Except.ok r.1, r.2)).run c = _
  rw [Parser.run_bind, h, counted, Parser.followedBy_of_ok rfl, Parser.run_pure, List.append_nil]
  rfl

theorem returns_recovering (h : Returns level x p c) (hc : c.rest ≠ []) :
    Returns level (recovering x) (Parser.recovering p) c := by
  rw [Returns, Parser.run_recovering p hc]
  exact (returns_reading _).bind fun _ _ => (returns_attempt h).bind fun _ _ => returns_reading _

theorem returns_element (stop : Token → Bool) (h : ∀ c, Returns level x p c) :
    Returns level (element stop x) (Parser.element stop p) c := by
  refine (returns_reading _).bind fun next hnext => ?_
  cases next with
  | none => exact returns_pure _
  | some t =>
    have hc : c.rest ≠ [] := by
      intro hc
      simp [Parser.peek, Cursor.token?, hc] at hnext
    dsimp only
    split
    · exact returns_pure _
    · split
      · exact (returns_reading _).bind fun _ _ => returns_pure _
      · exact (returns_recovering (h _) hc).bind fun _ _ => returns_pure _

theorem returns_statementsUntil (stop : Token → Bool) (h : ∀ c, Returns level x p c) :
    Returns level (statementsUntil beyond stop x) (Parser.statementsUntil stop p) c :=
  (returns_many (fun _ => returns_element stop h) _).bind fun _ _ => returns_pure _

/-! ### Phrases with a counter -/

section

variable {x : Precedence → Counting Expr} {y : Counting Block} {e : Precedence → Parser Expr}
  {b : Parser Block}

theorem returns_conditionalExpr (he : ∀ p c, Returns level (x p) (e p) c)
    (hb : ∀ c, Returns level y b c) :
    Returns level (conditionalExpr x y) (Parser.conditionalExpr e b) c := by
  refine (returns_reading _).bind fun line _ => (returns_reading _).bind fun _ _ =>
    (he _ _).bind fun condition _ => (returns_reading _).bind fun _ _ =>
    (hb _).bind fun consequence _ => (returns_reading _).bind fun alternative _ => ?_
  cases alternative with
  | true => exact (hb _).bind fun _ _ => returns_pure _
  | false => exact returns_pure _

theorem returns_startingWith (he : ∀ p c, Returns level (x p) (e p) c)
    (hb : ∀ c, Returns level y b c) (form : StartForm) :
    Returns level (startingWith beyond x y form) (Parser.startingWith e b form) c := by
  cases form with
  | identifier => exact returns_reading _
  | integer => exact returns_reading _
  | boolean => exact returns_reading _
  | prefixed => exact (returns_reading _).bind fun _ _ => (he _ _).bind fun _ _ => returns_pure _
  | group =>
    exact (returns_reading _).bind fun _ _ => (he _ _).bind fun _ _ =>
      (returns_reading _).bind fun _ _ => returns_pure _
  | conditional => exact returns_conditionalExpr he hb
  | function =>
    exact (returns_reading _).bind fun _ _ => (returns_reading _).bind fun _ _ =>
      (returns_commaSeparated (fun _ => returns_reading _) _).bind fun _ _ =>
      (hb _).bind fun _ _ => returns_pure _

theorem returns_firstOperand (he : ∀ p c, Returns level (x p) (e p) c)
    (hb : ∀ c, Returns level y b c) :
    Returns level (firstOperand beyond x y) (Parser.firstOperand e b) c := by
  refine (returns_reading _).bind fun line _ => (returns_reading _).bind fun next _ => ?_
  cases next with
  | none => exact returns_reading _
  | some t =>
    dsimp only
    cases t.startForm? with
    | none => exact (returns_reading _).bind fun _ _ => returns_reading _
    | some form => exact returns_startingWith he hb form

theorem returns_continuedBy (he : ∀ p c, Returns level (x p) (e p) c) (left : Expr)
    (form : ContinueForm) :
    Returns level (continuedBy beyond x left form) (Parser.continuedBy e left form) c := by
  cases form with
  | infixed => exact (returns_reading _).bind fun _ _ => (he _ _).bind fun _ _ => returns_pure _
  | call =>
    exact (returns_reading _).bind fun _ _ =>
      (returns_commaSeparated (fun _ => he _ _) _).bind fun _ _ => returns_pure _

theorem returns_stmt (he : ∀ p c, Returns level (x p) (e p) c) :
    Returns level (stmt x) (Parser.stmt e) c := by
  refine (returns_reading _).bind fun next _ => ?_
  have hrest {c} {f : Expr → Stmt} : Returns level
      (do let value ← x .lowest; let _ ← reading (Parser.optional .semicolon); return f value)
      (do let value ← e .lowest; let _ ← Parser.optional .semicolon; return f value) c :=
    (he _ _).bind fun _ _ => (returns_reading _).bind fun _ _ => returns_pure _
  cases next with
  | none => exact (returns_reading _).bind fun _ _ => hrest
  | some t =>
    cases t with
    | letWord =>
      exact (returns_reading _).bind fun _ _ => (returns_reading _).bind fun _ _ =>
        (returns_reading _).bind fun _ _ => hrest
    | returnWord => exact (returns_reading _).bind fun _ _ => hrest
    | _ => exact (returns_reading _).bind fun _ _ => hrest

theorem returns_bracedBlock (he : ∀ p c, Returns level (x p) (e p) c) :
    Returns level (bracedBlock beyond x) (Parser.bracedBlock e) c :=
  (returns_reading _).bind fun _ _ =>
    (returns_statementsUntil _ fun _ => returns_stmt he).bind fun _ _ =>
    (returns_reading _).bind fun _ _ => returns_pure _

end

/-! ### The grammar with a counter -/

/-- What continues an expression, from a level on. -/
theorem answers_continuing {x : Precedence → Counting Expr} {rounds : Nat}
    (hx : ∀ level', level < level' → level' ≤ limit →
      ∀ p c, Returns level' (x p) (Parser.expressionAt limit (limit - level') p) c)
    (hl : level ≤ limit) (hr : limit < level + rounds) (p : Precedence) (left : Expr)
    (c : Cursor) :
    Answers level (continuing beyond x limit p rounds left)
      (Parser.continueAt limit (limit - level) p left) c := by
  -- each round enters a level, so the levels are used up before the rounds
  induction rounds generalizing level left c with
  | zero => exact absurd hl (Nat.not_le.mpr hr)
  | succ rounds ih =>
    have hpeek : Returns level (reading Parser.peek) Parser.peek c := returns_reading _
    rcases Nat.eq_or_lt_of_le hl with rfl | hlt
    · rw [Nat.sub_self]
      refine Answers.bind hpeek fun next _ => ?_
      cases Parser.continuation p next with
      | none => exact (returns_pure _).answers
      | some form => exact ⟨_, run_descend_bind_limit (Nat.le_refl _) _⟩
    · obtain ⟨k, hk⟩ : ∃ k, limit - level = k + 1 := ⟨limit - (level + 1), by omega⟩
      obtain rfl : k = limit - (level + 1) := by omega
      rw [hk]
      refine Answers.bind hpeek fun next _ => ?_
      cases Parser.continuation p next with
      | none => exact (returns_pure _).answers
      | some form =>
        have he := hx (level + 1) (Nat.lt_succ_self _) hlt
        refine answers_descend_bind hlt ?_
        refine Answers.bind (returns_continuedBy he left form) fun longer _ => ?_
        exact ih (fun level' h => hx level' (Nat.lt_of_succ_lt h)) hlt (by omega) longer _

/-- **Expressions and blocks with a counter.**  From every level up to the limit they do what
is done with the levels that are left, and come back to the level. -/
theorem returns_phrases {phrases : Nat} (hl : level ≤ limit) (hp : limit < level + phrases) :
    (∀ p c, Returns level (expressionWith beyond limit phrases p)
      (Parser.expressionAt limit (limit - level) p) c) ∧
    ∀ c, Returns level (blockWith beyond limit phrases)
      (Parser.blockAt limit (limit - level)) c := by
  induction phrases generalizing level with
  | zero => exact absurd hl (Nat.not_le.mpr hp)
  | succ phrases ih =>
    rcases Nat.eq_or_lt_of_le hl with rfl | hlt
    · rw [Nat.sub_self]
      exact ⟨fun p c => returns_nested_limit (Nat.le_refl _) _,
        fun c => returns_nested_limit (Nat.le_refl _) _⟩
    · obtain ⟨he, hb⟩ := @ih (level + 1) hlt (by omega)
      obtain ⟨k, hk⟩ : ∃ k, limit - level = k + 1 := ⟨limit - (level + 1), by omega⟩
      obtain rfl : k = limit - (level + 1) := by omega
      rw [hk]
      refine ⟨fun p c => returns_nested hlt (.bind (returns_firstOperand he hb) fun left _ => ?_),
        fun c => returns_nested hlt (returns_bracedBlock he).answers⟩
      refine answers_continuing (fun level' h h' => ?_) hlt (by omega) p left _
      exact (ih h' (by omega)).1

theorem returns_expression (p : Precedence) (c : Cursor) :
    Returns 0 (expression beyond limit p) (Parser.expressionWithin limit p) c :=
  (returns_phrases (Nat.zero_le _) (by omega)).1 p c

/-- With three levels the operand of the second operator is too deep, and the counter is back
at zero after that. -/
example : ((((expression (fun _ => throw (.nestingTooDeep 0 0)) 3 .lowest).run.run 0).run
    (.start (tokenize "1 + 2 + 3"))).result.map fun r => (r.1.isOk, r.2)) = .ok (false, 0) := by
  decide +kernel

theorem returns_block (c : Cursor) :
    Returns 0 (block beyond limit) (Parser.blockWithin limit) c :=
  (returns_phrases (Nat.zero_le _) (by omega)).2 c

theorem returns_statement (c : Cursor) :
    Returns 0 (statement beyond limit) (Parser.statementWithin limit) c :=
  returns_stmt returns_expression

theorem returns_program (c : Cursor) :
    Returns 0 (program beyond limit) (Parser.programWithin limit) c :=
  returns_statementsUntil _ returns_statement

end Counting

end ExprScript
