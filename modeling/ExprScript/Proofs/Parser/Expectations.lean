import ExprScript.Proofs.Parser.Reuse
import ExprScript.Proofs.Parser.Stretches

/-!
# What errors expect

An error that complains of a token says what was expected in its place.  Each phrase begins
by reading its first token and would complain of another one, but a phrase is chosen by that
token: what the tables say of it is what the phrase accepts (`Token.integer?_isSome` and the
lemmas after it).  So only eight expectations arise (`Expectation.arising`), whatever the
lexemes are and however a reader is used on them, and none of them is that of a numeral, a
truth value, an operator or a keyword.  Each of the eight does arise.

* `Parser.orderly_startingWith`, `Parser.orderly_continuedBy`, `Parser.orderly_stmt`: phrases
  that are chosen by the next token.
* `Parser.orderly_levels`: expressions and blocks, with any number of levels left.
* `only_some_expectations_arise`: everything that a reader can be asked for.
-/

namespace ExprScript

/-! ### What the tables promise -/

namespace Token

variable {t : Token}

theorem integer?_isSome (h : t.startForm? = some .integer) : t.integer?.isSome := by
  cases t <;> simp_all [startForm?, integer?]

theorem boolean?_isSome (h : t.startForm? = some .boolean) : t.boolean?.isSome := by
  cases t <;> simp_all [startForm?, boolean?]

theorem prefixOp?_isSome (h : t.startForm? = some .prefixed) : t.prefixOp?.isSome := by
  cases t <;> simp_all [startForm?, prefixOp?]

theorem eq_ifWord (h : t.startForm? = some .conditional) : t = .ifWord := by
  cases t <;> simp_all [startForm?]

theorem eq_fnWord (h : t.startForm? = some .function) : t = .fnWord := by
  cases t <;> simp_all [startForm?]

theorem infixOp?_isSome_of_continueForm? (h : t.continueForm? = some .infixed) :
    t.infixOp?.isSome := by
  cases t <;> simp_all [continueForm?, infixOp?]

end Token

/-! ### Expectations -/

/-- What the error says was expected, if it complains of a token or of the end of input. -/
def ParseError.expected? : ParseError → Option Expectation
  | .unexpectedToken expected _ _ => some expected
  | .unexpectedEnd expected _ => some expected
  | _ => none

def Expectation.arising : List Expectation :=
  [.token .leftParen, .token .rightParen, .token .leftBrace, .token .rightBrace, .token .assign,
    .identifier, .expression, .commaOr .rightParen]

/-- If the error expects something, then that is an expectation that arises. -/
def ParseError.Orderly (e : ParseError) : Prop :=
  ∀ expected ∈ e.expected?, expected ∈ Expectation.arising

theorem ParseError.orderly_of_none {e : ParseError} (h : e.expected? = none) : e.Orderly := by
  simp [Orderly, h]

theorem ParseError.orderly_of_some {e : ParseError} {expected : Expectation}
    (h : e.expected? = some expected) (he : expected ∈ Expectation.arising) : e.Orderly := by
  simpa [Orderly, h] using he

def Outcome.Orderly {α : Type} (o : Outcome α) : Prop :=
  ∀ e ∈ o.errors, e.Orderly

namespace Parser

variable {α β : Type}

/-- The parser finds only orderly errors, wherever it starts. -/
def Orderly (p : Parser α) : Prop :=
  ∀ c, (p.run c).Orderly

section
variable {p : Parser α} {c : Cursor} {t : Token} {expected : Expectation} {f : Token → Option α}

theorem addsUp_orderly : AddsUp fun _ es _ => ∀ e ∈ es, e.Orderly where
  stay _ := List.forall_mem_nil _
  skip _ := List.forall_mem_nil _
  append h h' := List.forall_mem_append.mpr ⟨h, h'⟩

theorem orderly_followedBy {o : Outcome α} {f : α → Parser β} (ho : o.Orderly)
    (hf : ∀ a, o.result = .ok a → ((f a).run o.next).Orderly) : (followedBy o f).Orderly :=
  addsUp_orderly.followedBy (c := o.next) ho hf

theorem Orderly.bind {f : α → Parser β} (hp : p.Orderly) (hf : ∀ a, (f a).Orderly) :
    (p >>= f).Orderly :=
  addsUp_orderly.bind hp hf

theorem orderly_pure (a : α) : (pure a : Parser α).Orderly :=
  addsUp_orderly.pure a

theorem orderly_peek : peek.Orderly :=
  addsUp_orderly.peek

theorem orderly_currentLine : currentLine.Orderly :=
  addsUp_orderly.currentLine

theorem orderly_advance : advance.Orderly :=
  addsUp_orderly.advance

theorem orderly_failAt {e : Cursor → ParseError} (he : ∀ c, (e c).Orderly) :
    (failAt e : Parser α).Orderly :=
  fun c => List.forall_mem_singleton.mpr (he c)

theorem orderly_nestingTooDeep (limit : Nat) : (nestingTooDeep limit : Parser α).Orderly :=
  orderly_failAt fun _ => ParseError.orderly_of_none rfl

theorem orderly_accept (he : expected ∈ Expectation.arising) (f : Token → Option α) :
    (accept expected f).Orderly := by
  intro c
  cases hc : c.rest with
  | nil =>
    simp only [accept, hc]
    exact List.forall_mem_singleton.mpr (ParseError.orderly_of_some rfl he)
  | cons l rest =>
    cases hf : f l.token with
    | none =>
      simp only [accept, hc, hf]
      exact List.forall_mem_singleton.mpr (ParseError.orderly_of_some rfl he)
    | some a =>
      simp only [accept, hc, hf]
      exact List.forall_mem_nil _

/-- A token that is known is read without an error, whatever else would have been expected. -/
theorem orderly_accept_of_token (ht : c.token? = some t) (hf : (f t).isSome) :
    ((accept expected f).run c).Orderly := by
  obtain ⟨l, hl, rfl⟩ := Option.map_eq_some_iff.mp ht
  obtain ⟨rest, hc⟩ := List.head?_eq_some_iff.mp hl
  obtain ⟨a, ha⟩ := Option.isSome_iff_exists.mp hf
  simp only [accept, hc, ha]
  exact List.forall_mem_nil _

theorem orderly_expect (he : .token t ∈ Expectation.arising) : (expect t).Orderly :=
  (orderly_accept he _).bind fun _ => orderly_pure _

theorem orderly_expect_of_token (ht : c.token? = some t) : ((expect t).run c).Orderly :=
  orderly_followedBy (orderly_accept_of_token ht (by simp)) fun _ _ => orderly_pure _ _

theorem orderly_identifier : identifier.Orderly :=
  (orderly_accept (by decide) _).bind fun _ => orderly_pure _

theorem orderly_optional (t : Token) : (optional t).Orderly :=
  addsUp_orderly.optional t

theorem Orderly.commaSeparated (hp : p.Orderly) {closing : Token}
    (he : .commaOr closing ∈ Expectation.arising) : (commaSeparated p closing).Orderly :=
  addsUp_orderly.commaSeparated hp ((orderly_accept he _).bind fun _ => orderly_pure _)

theorem Orderly.statementsUntil (hp : p.Orderly) (stop : Token → Bool) :
    (statementsUntil stop p).Orderly :=
  addsUp_orderly.statementsUntil hp stop

end

/-! ### Phrases -/

section
variable {e : Precedence → Parser Expr} {b : Parser Block} {c : Cursor} {t : Token}

/-- **A first operand lands on a token that it accepts.** -/
theorem orderly_startingWith (he : ∀ p, (e p).Orderly) (hb : b.Orderly)
    (ht : c.token? = some t) {form : StartForm} (hform : t.startForm? = some form) :
    ((startingWith e b form).run c).Orderly := by
  cases form with
  | identifier => exact orderly_identifier.bind (fun _ => orderly_pure _) c
  | integer =>
    refine orderly_followedBy (orderly_accept_of_token ht (Token.integer?_isSome hform)) ?_
    rintro ⟨text, line⟩ -
    dsimp only
    split
    · exact orderly_pure _ _
    · exact orderly_failAt (fun _ => ParseError.orderly_of_none rfl) _
  | boolean =>
    exact orderly_followedBy (orderly_accept_of_token ht (Token.boolean?_isSome hform))
      fun _ _ => orderly_pure _ _
  | prefixed =>
    exact orderly_followedBy (orderly_accept_of_token ht (Token.prefixOp?_isSome hform))
      fun _ _ => (he _).bind (fun _ => orderly_pure _) _
  | group =>
    exact (orderly_expect (by decide)).bind (fun _ => (he _).bind fun inner =>
      (orderly_expect (by decide)).bind fun _ => orderly_pure inner) c
  | conditional =>
    rw [Token.eq_ifWord hform] at ht
    refine orderly_followedBy (orderly_expect_of_token ht) fun line _ => ?_
    refine Orderly.bind (orderly_expect (by decide)) (fun _ => (he _).bind fun condition => ?_) _
    refine (orderly_expect (by decide)).bind fun _ => hb.bind fun consequence => ?_
    refine (orderly_optional _).bind fun more => ?_
    cases more with
    | false => exact orderly_pure _
    | true => exact hb.bind fun alternative => orderly_pure _
  | function =>
    rw [Token.eq_fnWord hform] at ht
    refine orderly_followedBy (orderly_expect_of_token ht) fun line _ => ?_
    refine Orderly.bind (orderly_expect (by decide)) (fun _ => ?_) _
    exact (orderly_identifier.commaSeparated (by decide)).bind fun _ => hb.bind fun _ =>
      orderly_pure _

theorem orderly_firstOperand (he : ∀ p, (e p).Orderly) (hb : b.Orderly) :
    (firstOperand e b).Orderly := by
  intro c
  rw [firstOperand, run_currentLine_bind, run_peek_bind]
  cases ht : c.token? with
  | none => exact orderly_failAt (fun _ => ParseError.orderly_of_some rfl (by decide)) c
  | some t =>
    dsimp only
    split
    · exact orderly_advance.bind
        (fun _ => orderly_failAt fun _ => ParseError.orderly_of_none rfl) c
    · next hform => exact orderly_startingWith he hb ht hform

/-- **What continues an expression lands on a token that it accepts.** -/
theorem orderly_continuedBy (he : ∀ p, (e p).Orderly) (left : Expr) (ht : c.token? = some t)
    {form : ContinueForm} (hform : t.continueForm? = some form) :
    ((continuedBy e left form).run c).Orderly := by
  cases form with
  | infixed =>
    refine orderly_followedBy (orderly_accept_of_token ht ?_)
      fun _ _ => (he _).bind (fun _ => orderly_pure _) _
    rw [Option.isSome_map]
    exact Token.infixOp?_isSome_of_continueForm? hform
  | call =>
    exact (orderly_expect (by decide)).bind (fun _ =>
      ((he _).commaSeparated (by decide)).bind fun _ => orderly_pure _) c

/-- **A statement lands on a token that it accepts.** -/
theorem orderly_stmt (he : ∀ p, (e p).Orderly) : (stmt e).Orderly := by
  intro c
  have hend {f : Expr → Stmt} : (do
      let value ← e .lowest
      let _ ← optional .semicolon
      return f value).Orderly :=
    (he _).bind fun _ => (orderly_optional _).bind fun _ => orderly_pure _
  rw [stmt, run_peek_bind]
  split
  · next ht =>
    refine orderly_followedBy (orderly_expect_of_token ht) fun line _ => ?_
    exact orderly_identifier.bind (fun _ => (orderly_expect (by decide)).bind fun _ => hend) _
  · next ht => exact orderly_followedBy (orderly_expect_of_token ht) fun line _ => hend _
  · exact orderly_currentLine.bind (fun _ => hend) c

theorem orderly_bracedBlock (he : ∀ p, (e p).Orderly) : (bracedBlock e).Orderly :=
  (orderly_expect (by decide)).bind fun _ => ((orderly_stmt he).statementsUntil _).bind fun _ =>
    (orderly_expect (by decide)).bind fun _ => orderly_pure _

end

theorem orderly_levels (limit n : Nat) :
    (∀ p, (expressionAt limit n p).Orderly) ∧ (∀ p left, (continueAt limit n p left).Orderly) ∧
      (blockAt limit n).Orderly := by
  induction n with
  | zero =>
    refine ⟨fun p => orderly_nestingTooDeep _, fun p left => orderly_peek.bind fun next => ?_,
      orderly_nestingTooDeep _⟩
    split
    · exact orderly_pure left
    · exact orderly_nestingTooDeep _
  | succ n ih =>
    obtain ⟨he, hloop, hb⟩ := ih
    refine ⟨fun p => (orderly_firstOperand he hb).bind fun left => hloop p left,
      fun p left c => ?_, orderly_bracedBlock he⟩
    rw [continueAt, run_peek_bind]
    split
    · exact orderly_pure left c
    · next form hform =>
      obtain ⟨l, rest, hc, -, hl⟩ := continuation_eq_some hform
      have hlonger := orderly_continuedBy he left (Cursor.token?_of_rest hc) hl
      exact orderly_followedBy hlonger fun longer _ => hloop p longer _

end Parser

/-! ### Readers -/

theorem Reader.Call.orderly (call : Call) : call.parser.Orderly := by
  obtain ⟨he, -, hb⟩ := Parser.orderly_levels maxNesting maxNesting
  cases call with
  | program => exact (Parser.orderly_stmt he).statementsUntil _
  | statement => exact Parser.orderly_stmt he
  | block => exact hb
  | expression p => exact he p

theorem Outcome.mem_errors {α : Type} {o : Outcome α} {e : ParseError} :
    e ∈ o.errors ↔ o.result = .error e ∨ e ∈ o.recorded := by
  rw [errors, List.mem_append]
  cases o.result with
  | ok a => simp
  | error e' => simp [or_comm, eq_comm]

theorem Reader.orderly_errors_run {r : Reader} (h : ∀ e ∈ r.errors, e.Orderly) (call : Call) :
    ∀ e ∈ (r.run call.parser).2.errors, e.Orderly :=
  List.forall_mem_append.mpr
    ⟨h, fun e he => call.orderly r.cursor e (Outcome.mem_errors.mpr (Or.inr he))⟩

theorem Reader.orderly_errors_after {r : Reader} (h : ∀ e ∈ r.errors, e.Orderly)
    (calls : List Call) : ∀ e ∈ (r.after calls).errors, e.Orderly := by
  induction calls generalizing r with
  | nil => exact h
  | cons call calls ih => exact ih (r.orderly_errors_run h call)

/-- The errors that a reader of some lexemes can come to: those that it has recorded after
some calls, and those that it hands to its caller. -/
def Reader.Reports (lexemes : List Lexeme) (e : ParseError) : Prop :=
  ∃ (calls : List Call) (call : Call),
    let (answer, next) := ((Reader.start lexemes).after calls).run call.parser
    answer = .error e ∨ e ∈ next.errors

theorem Reader.Reports.orderly {lexemes : List Lexeme} {e : ParseError}
    (h : Reader.Reports lexemes e) : e.Orderly := by
  obtain ⟨calls, call, hanswer | hrecorded⟩ := h
  · exact call.orderly _ e (Outcome.mem_errors.mpr (Or.inl hanswer))
  · have hused : ∀ e ∈ ((Reader.start lexemes).after calls).errors, e.Orderly :=
      Reader.orderly_errors_after (List.forall_mem_nil _) calls
    exact Reader.orderly_errors_run hused call e hrecorded

theorem Reader.reports_of_parse {source : String} {e : ParseError}
    (h : e ∈ (parse source).errors) : Reader.Reports (tokenize source) e := by
  rw [parse, parseLexemes, errors_parseLexemesWithin] at h
  exact ⟨[], .program, Outcome.mem_errors.mp h⟩

/-- Each of the expectations arises in some program text. -/
theorem Expectation.arises {expected : Expectation} (h : expected ∈ arising) :
    ∃ source, ∃ e ∈ (parse source).errors, e.expected? = some expected := by
  have hsources : arising.Forall fun expected =>
      ∃ source ∈ ["if x", "(1 2", "if (x) y", "fn() \x7b", "let x 5", "let 5", "let x =",
          "f(1 2"],
        ∃ e ∈ (parse source).errors, e.expected? = some expected := by
    decide +kernel
  obtain ⟨source, -, he⟩ := List.forall_iff_forall_mem.mp hsources expected h
  exact ⟨source, he⟩

/-- **Only some expectations arise.**  Whatever the lexemes are, and whatever a reader is
asked for on them, one thing after the other, no error that it records or hands to its caller
says that a numeral, a truth value, an operator or a keyword was expected: where a phrase
begins with one of these it is chosen only in front of one.  The expectations that do arise
are the eight of `Expectation.arising`. -/
theorem only_some_expectations_arise :
    (∀ lexemes e expected, Reader.Reports lexemes e → e.expected? = some expected →
      expected.text ∉ ["an integer", "a boolean", "'!' or '-'", "an operator", "'let'", "'return'",
        "'if'", "'fn'"]) ∧
    ∀ expected, (∃ lexemes e, Reader.Reports lexemes e ∧ e.expected? = some expected) ↔
      expected ∈ Expectation.arising := by
  refine ⟨fun lexemes e expected h he => ?_, fun expected => ⟨?_, fun h => ?_⟩⟩
  · have htexts : ∀ expected ∈ Expectation.arising, expected.text ∉ ["an integer", "a boolean",
        "'!' or '-'", "an operator", "'let'", "'return'", "'if'", "'fn'"] := by decide +kernel
    exact htexts expected (h.orderly expected he)
  · rintro ⟨lexemes, e, h, he⟩
    exact h.orderly expected he
  · obtain ⟨source, e, hmem, he⟩ := Expectation.arises h
    exact ⟨tokenize source, e, Reader.reports_of_parse hmem, he⟩

/-- A reader is asked for an expression in front of a line break, and then for a statement: a
name was expected behind `let`, where something else stands that is written like a keyword. -/
theorem only_some_expectations_arise_name :
    let lexemes : List Lexeme := [⟨.newline, 1⟩, ⟨.letWord, 2⟩, ⟨.illegal "if", 2⟩]
    let e : ParseError := .unexpectedToken .identifier (.illegal "if") 2
    Reader.Reports lexemes e ∧ e.expected? = some .identifier ∧
      Expectation.identifier.text ∉ ["an integer", "a boolean", "'!' or '-'", "an operator",
        "'let'", "'return'", "'if'", "'fn'"] := by
  intro lexemes e
  have hreports : Reader.Reports lexemes e := ⟨[.expression .lowest], .statement, Or.inl rfl⟩
  exact ⟨hreports, rfl, only_some_expectations_arise.1 lexemes e .identifier hreports rfl⟩

end ExprScript
