import ExprScript.Proofs.Parser.Counting

/-!
# Readers that were used before

A reader may be asked for one phrase after the other, and may fail on the way; it goes on
where it stopped.  What it does then is what a fresh reader does with the lexemes that are
left (`used_reader_is_like_fresh`).  Two things could make a difference.  The line of the
lexeme read last is seen only at the end of the input, because every phrase looks at a lexeme
first if there is one (`Reader.Call.forgets`).  And the counter of levels comes back to zero,
also where a phrase fails with it above the limit: a reader that keeps one (`CountingReader`)
is always a reader with the counter at zero (`CountingReader.after_eq`).
-/

namespace ExprScript

/-- What a reader may be asked for. -/
inductive Reader.Call where
  | program
  | statement
  | block
  | expression (p : Precedence)

namespace Reader.Call

def Value : Call → Type
  | program => Program
  | statement => Stmt
  | block => Block
  | expression _ => Expr

def parser : (call : Call) → Parser call.Value
  | program => Parser.program
  | statement => Parser.statement
  | block => Parser.block
  | expression p => Parser.expression p

def counting (beyond : (α : Type) → Counting α) : (call : Call) → Counting call.Value
  | program => Counting.program beyond maxNesting
  | statement => Counting.statement beyond maxNesting
  | block => Counting.block beyond maxNesting
  | expression p => Counting.expression beyond maxNesting p

theorem returns_counting (beyond : (α : Type) → Counting α) (call : Call) (c : Cursor) :
    Counting.Returns 0 (call.counting beyond) call.parser c := by
  cases call with
  | program => exact Counting.returns_program c
  | statement => exact Counting.returns_statement c
  | block => exact Counting.returns_block c
  | expression p => exact Counting.returns_expression p c

/-- Where there is a lexeme to read, it does not matter what was read before. -/
theorem forgets (call : Call) : call.parser.Forgets := by
  have hstatement : Parser.statement.Forgets :=
    (Parser.readsFirst_stmt (Parser.readsFirst_expressionAt maxNesting maxNesting)).forgets
  cases call with
  | program =>
    intro c c' hc h
    obtain ⟨l, rest, hr⟩ := List.exists_cons_of_ne_nil hc
    exact Or.inl (hstatement.statementsUntil hr h rfl)
  | statement => exact hstatement
  | block => exact ((Parser.readsFirst_expect .leftBrace).bind _).forgets
  | expression p => exact (Parser.readsFirst_expressionAt maxNesting maxNesting p).forgets

/-- At the end of the input there is an empty program, and no other phrase. -/
theorem run_nil (call : Call) :
    (∃ a, ∀ c : Cursor, c.rest = [] → call.parser.run c = ⟨.ok a, [], c⟩) ∨
      ∃ expected, ∀ c : Cursor, c.rest = [] →
        call.parser.run c = ⟨.error (.unexpectedEnd expected c.line), [], c⟩ := by
  cases call with
  | program =>
    refine Or.inl ⟨[], fun c hc => Parser.run_statementsUntil_stop ?_⟩
    simp [Cursor.token?_eq_none hc]
  | statement =>
    refine Or.inr ⟨.expression, fun ⟨rest, line, left, h⟩ hc => ?_⟩
    obtain rfl : rest = [] := hc
    rfl
  | block =>
    refine Or.inr ⟨.token .leftBrace, fun ⟨rest, line, left, h⟩ hc => ?_⟩
    obtain rfl : rest = [] := hc
    rfl
  | expression p =>
    refine Or.inr ⟨.expression, fun ⟨rest, line, left, h⟩ hc => ?_⟩
    obtain rfl : rest = [] := hc
    rfl

end Reader.Call

def Reader.after (r : Reader) (calls : List Reader.Call) : Reader :=
  calls.foldl (fun r call => (r.run call.parser).2) r

/-- What is left of a used reader is read as by a fresh one. -/
theorem Reader.run_fresh (r : Reader) (call : Reader.Call) :
    let (answer, next) := r.run call.parser
    let (answer', next') := (Reader.start r.cursor.rest).run call.parser
    (next.cursor.rest = next'.cursor.rest ∧ next.errors = r.errors ++ next'.errors) ∧
    (r.cursor.rest ≠ [] → answer = answer') ∧
    (r.cursor.rest = [] → answer = answer' ∨ ∃ expected line line',
      answer = .error (.unexpectedEnd expected line) ∧
      answer' = .error (.unexpectedEnd expected line')) := by
  have hstart : (Cursor.start r.cursor.rest).rest = r.cursor.rest := rfl
  simp only [Reader.run, Reader.start, List.nil_append]
  by_cases hc : r.cursor.rest = []
  · rcases call.run_nil with ⟨a, h⟩ | ⟨expected, h⟩
    · rw [h _ hc, h _ (hstart.trans hc)]
      exact ⟨⟨hstart.symm, rfl⟩, fun _ => rfl, fun _ => Or.inl rfl⟩
    · rw [h _ hc, h _ (hstart.trans hc)]
      exact ⟨⟨hstart.symm, rfl⟩, fun hne => absurd hc hne,
        fun _ => Or.inr ⟨expected, _, _, rfl, rfl⟩⟩
  · rcases call.forgets _ _ hc hstart with h | ⟨e, h, h'⟩
    · rw [h]
      exact ⟨⟨rfl, rfl⟩, fun _ => rfl, fun hnil => absurd hnil hc⟩
    · rw [h, h']
      exact ⟨⟨hstart.symm, rfl⟩, fun _ => rfl, fun hnil => absurd hnil hc⟩

/-! ### Readers with a counter -/

/-- A reader that keeps the level of nesting from one call to the next. -/
structure CountingReader where
  reader : Reader
  level : Nat

namespace CountingReader

def start (lexemes : List Lexeme) : CountingReader :=
  ⟨.start lexemes, 0⟩

def run {α : Type} (r : CountingReader) (x : Counting α) :
    Except ParseError α × CountingReader :=
  match r.reader.run (x.run.run r.level) with
  | (.ok (answer, level), reader) => (answer, ⟨reader, level⟩)
  | (.error e, reader) => (.error e, ⟨reader, r.level⟩)

def after (beyond : (α : Type) → Counting α) (r : CountingReader) (calls : List Reader.Call) :
    CountingReader :=
  calls.foldl (fun r call => (r.run (call.counting beyond)).2) r

variable (beyond : (α : Type) → Counting α)

/-- From zero the counter comes back to zero, with a value or an error. -/
theorem run_of_returns {α : Type} {r : Reader} {x : Counting α} {p : Parser α}
    (h : Counting.Returns 0 x p r.cursor) :
    run ⟨r, 0⟩ x = ((r.run p).1, ⟨(r.run p).2, 0⟩) := by
  rw [run, Reader.run, show _ = _ from h]
  rfl

theorem run_counting (r : Reader) (call : Reader.Call) :
    run ⟨r, 0⟩ (call.counting beyond) = ((r.run call.parser).1, ⟨(r.run call.parser).2, 0⟩) :=
  run_of_returns (call.returns_counting beyond r.cursor)

theorem foldl_run_of_returns {x : (call : Reader.Call) → Counting call.Value}
    (h : ∀ call c, Counting.Returns 0 (x call) call.parser c) (r : Reader)
    (calls : List Reader.Call) :
    calls.foldl (fun r call => (run r (x call)).2) ⟨r, 0⟩ = ⟨r.after calls, 0⟩ := by
  induction calls generalizing r with
  | nil => rfl
  | cons call calls ih =>
    rw [List.foldl_cons, run_of_returns (h call r.cursor)]
    exact ih _

theorem after_eq (r : Reader) (calls : List Reader.Call) :
    after beyond ⟨r, 0⟩ calls = ⟨r.after calls, 0⟩ :=
  foldl_run_of_returns (Reader.Call.returns_counting beyond) r calls

end CountingReader

/-- **A used reader behaves like a fresh one on what is left**, whatever it was asked for
before and whatever came of it.  The same lexemes are left after the next call, the same errors
are recorded, and the answer is the same; only where no lexeme is left before it, an answer that
complains of that may tell another line.  The nesting of a call is counted from zero, in the
used reader as in the fresh one. -/
theorem used_reader_is_like_fresh (beyond : (α : Type) → Counting α) (lexemes : List Lexeme)
    (calls : List Reader.Call) (call : Reader.Call) :
    let used := (Reader.start lexemes).after calls
    let (answer, next) := used.run call.parser
    let (answer', next') := (Reader.start used.cursor.rest).run call.parser
    next.cursor.rest = next'.cursor.rest ∧ next.errors = used.errors ++ next'.errors ∧
    (used.cursor.rest ≠ [] → answer = answer') ∧
    (used.cursor.rest = [] → answer = answer' ∨ ∃ expected line line',
      answer = .error (.unexpectedEnd expected line) ∧
      answer' = .error (.unexpectedEnd expected line')) ∧
    (CountingReader.start lexemes).after beyond calls = ⟨used, 0⟩ ∧
    CountingReader.run ⟨used, 0⟩ (call.counting beyond) = (answer, ⟨next, 0⟩) ∧
    (CountingReader.start used.cursor.rest).run (call.counting beyond) =
      (answer', ⟨next', 0⟩) := by
  intro used
  obtain ⟨⟨hrest, herrors⟩, hfull, hempty⟩ := used.run_fresh call
  exact ⟨hrest, herrors, hfull, hempty, CountingReader.after_eq beyond _ calls,
    CountingReader.run_counting beyond used call, CountingReader.run_counting beyond _ call⟩

/-- A statement that fails in its condition leaves a binding, which is read as by a fresh
reader. -/
theorem used_reader_is_like_fresh_unclosed :
    let (answer, used) := (Reader.start (tokenize "if (x; let y = 2")).run Parser.statement
    answer.isOk = false ∧ used.cursor.rest ≠ [] ∧
      (used.run Parser.statement).1 =
        ((Reader.start used.cursor.rest).run Parser.statement).1 := by
  have hanswer : ((Reader.start (tokenize "if (x; let y = 2")).run Parser.statement).1.isOk =
      false := by decide +kernel
  have hrest : ((Reader.start (tokenize "if (x; let y = 2")).run Parser.statement).2.cursor.rest ≠
      [] := by decide +kernel
  obtain ⟨-, -, hsame, -⟩ := used_reader_is_like_fresh (fun _ => throw (.nestingTooDeep 0 0))
    (tokenize "if (x; let y = 2") [.statement] .statement
  exact ⟨hanswer, hrest, hsame hrest⟩

end ExprScript
