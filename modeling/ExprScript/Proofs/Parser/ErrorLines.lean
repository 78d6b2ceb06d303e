import ExprScript.Proofs.Lexer.Writing
import ExprScript.Proofs.Parser.Stretches

/-!
# Where errors are reported

Every error is reported on the line of the place where the phrase that fails has got to:
that of the next lexeme, or of the last one at the end of input.  Errors are made deep
inside a phrase and recorded by the run of statements around it, after those that were
recorded on the way.  So they are found in the order of their places, whatever was read or
left out between them: `Cursor.Finds` says so for a stretch of input, and stretches are put
together as parsers are.

* `Parser.locates_levels`: every phrase finds its errors in the order of their places.
* `Cursor.Finds.pairwise_le`: places in order are lines in order, if the lexemes are.
* `parse_errors_in_source_order`: whole programs.
-/

namespace ExprScript

/-! ### Places -/

namespace Cursor

inductive Onward : Cursor → Cursor → Prop where
  | refl (c : Cursor) : Onward c c
  | advance {c c' : Cursor} : Onward c.advance c' → Onward c c'

/-- Reading from one place to another one finds the errors at places between them, one
after the other. -/
inductive Finds : Cursor → List ParseError → Cursor → Prop where
  | nothing {c c' : Cursor} : c.Onward c' → Finds c [] c'
  | error {c c₁ c' : Cursor} {e : ParseError} {es : List ParseError} :
      c.Onward c₁ → e.line = c₁.currentLine → Finds c₁ es c' → Finds c (e :: es) c'

def lines (c : Cursor) : List Nat :=
  c.line :: c.rest.map Lexeme.line

variable {c c' c₁ : Cursor} {es es' : List ParseError}

theorem advance_of_nil (h : c.rest = []) : c.advance = c := by
  obtain ⟨rest, line, left, hl⟩ := c
  obtain rfl : rest = [] := h
  rfl

theorem line_advance {l : Lexeme} {rest : List Lexeme} (h : c.rest = l :: rest) :
    c.advance.line = l.line := by
  obtain ⟨rest', line, left, hl⟩ := c
  obtain rfl : rest' = l :: rest := h
  rfl

theorem currentLine_of_cons {l : Lexeme} {rest : List Lexeme} (h : c.rest = l :: rest) :
    c.currentLine = l.line := by
  simp [currentLine, h]

theorem currentLine_of_nil (h : c.rest = []) : c.currentLine = c.line := by
  simp [currentLine, h]

theorem Onward.trans (h : c.Onward c₁) (h' : c₁.Onward c') : c.Onward c' := by
  induction h with
  | refl c => exact h'
  | advance _ ih => exact .advance (ih h')

theorem onward_advance (c : Cursor) : c.Onward c.advance :=
  .advance (.refl _)

theorem Onward.lines_suffix (h : c.Onward c') : c'.lines <:+ c.lines := by
  induction h with
  | refl c => exact List.suffix_refl _
  | @advance c c' _ ih =>
    refine ih.trans ?_
    cases hc : c.rest with
    | nil => simp [advance_of_nil hc]
    | cons l rest =>
      rw [lines, lines, line_advance hc, rest_advance hc, hc, List.map_cons]
      exact List.suffix_cons _ _

theorem currentLine_mem_lines (c : Cursor) : c.currentLine ∈ c.lines := by
  cases hc : c.rest with
  | nil =>
    rw [currentLine_of_nil hc]
    exact List.mem_cons_self
  | cons l rest =>
    rw [currentLine_of_cons hc, lines, hc]
    exact List.mem_cons_of_mem _ List.mem_cons_self

/-- If the lines never go down, neither does the line of the place. -/
theorem currentLine_le_advance (hs : c.lines.Pairwise (· ≤ ·)) :
    c.currentLine ≤ c.advance.currentLine := by
  cases hc : c.rest with
  | nil => rw [advance_of_nil hc]
  | cons l rest =>
    rw [lines, hc, List.map_cons] at hs
    have hrest := rest_advance hc
    rw [currentLine_of_cons hc]
    cases rest with
    | nil => rw [currentLine_of_nil hrest, line_advance hc]
    | cons m rest =>
      rw [currentLine_of_cons hrest]
      exact List.rel_of_pairwise_cons hs.tail List.mem_cons_self

theorem Onward.currentLine_le (h : c.Onward c') (hs : c.lines.Pairwise (· ≤ ·)) :
    c.currentLine ≤ c'.currentLine := by
  induction h with
  | refl c => exact Nat.le_refl _
  | @advance c c' _ ih =>
    have hnext := hs.sublist (onward_advance c).lines_suffix.sublist
    exact Nat.le_trans (currentLine_le_advance hs) (ih hnext)

/-! ### Errors at places -/

theorem Finds.of_onward (h : c.Onward c₁) (hf : c₁.Finds es c') : c.Finds es c' := by
  cases hf with
  | nothing h' => exact .nothing (h.trans h')
  | error h' he hf => exact .error (h.trans h') he hf

theorem Finds.append (h : c.Finds es c₁) (h' : c₁.Finds es' c') : c.Finds (es ++ es') c' := by
  induction h with
  | nothing h => exact h'.of_onward h
  | error h he _ ih => exact .error h he (ih h')

theorem Finds.one {e : ParseError} (he : e.line = c.currentLine) (h : c.Onward c') :
    c.Finds [e] c' :=
  .error (.refl c) he (.nothing h)

theorem Finds.line_mem (h : c.Finds es c') {e : ParseError} (he : e ∈ es) :
    e.line ∈ c.lines := by
  induction h with
  | nothing => simp at he
  | @error c c₁ c' e' es h hline _ ih =>
    rcases List.mem_cons.mp he with rfl | he
    · rw [hline]
      exact h.lines_suffix.mem (currentLine_mem_lines c₁)
    · exact h.lines_suffix.mem (ih he)

/-- Errors at places one after the other have lines that never go down, if those of the
lexemes never do. -/
theorem Finds.pairwise_le (h : c.Finds es c') (hs : c.lines.Pairwise (· ≤ ·)) :
    (c.currentLine :: es.map ParseError.line).Pairwise (· ≤ ·) := by
  induction h with
  | nothing => simp
  | @error c c₁ c' e es h hline _ ih =>
    have hle := h.currentLine_le hs
    have hfound := ih (hs.sublist h.lines_suffix.sublist)
    rw [List.map_cons, hline]
    refine List.pairwise_cons.mpr ⟨?_, hfound⟩
    refine List.forall_mem_cons.mpr ⟨hle, fun n hn => ?_⟩
    exact Nat.le_trans hle (List.rel_of_pairwise_cons hfound hn)

end Cursor

/-! ### Parsers -/

namespace Parser

variable {α β : Type}

/-- The parser finds its errors one after the other, from where it starts to where it
stops. -/
def Locates (p : Parser α) : Prop :=
  ∀ c : Cursor, c.Finds (p.run c).errors (p.run c).next

section
variable {p : Parser α}

theorem addsUp_finds : AddsUp Cursor.Finds where
  stay c := .nothing (.refl c)
  skip c := .nothing c.onward_advance
  append := Cursor.Finds.append

theorem locates_pure (a : α) : (pure a : Parser α).Locates :=
  addsUp_finds.pure a

theorem locates_currentLine : currentLine.Locates :=
  addsUp_finds.currentLine

theorem locates_peek : peek.Locates :=
  addsUp_finds.peek

theorem locates_nestingTooDeep (limit : Nat) : (nestingTooDeep limit : Parser α).Locates :=
  fun c => .one rfl (.refl c)

theorem Locates.bind {f : α → Parser β} (hp : p.Locates) (hf : ∀ a, (f a).Locates) :
    (p >>= f).Locates :=
  addsUp_finds.bind hp hf

theorem locates_accept (expected : Expectation) (g : Token → Option α) :
    (accept expected g).Locates := by
  intro c
  cases hc : c.rest with
  | nil =>
    simp only [accept, hc]
    exact .one (Cursor.currentLine_of_nil hc).symm (.refl c)
  | cons l rest =>
    cases hg : g l.token with
    | none =>
      simp only [accept, hc, hg]
      exact .one (Cursor.currentLine_of_cons hc).symm c.onward_advance
    | some a =>
      simp only [accept, hc, hg]
      exact .nothing c.onward_advance

theorem locates_expect (t : Token) : (expect t).Locates :=
  (locates_accept _ _).bind fun _ => locates_pure _

theorem locates_identifier : identifier.Locates :=
  (locates_accept _ _).bind fun _ => locates_pure _

theorem locates_optional (t : Token) : (optional t).Locates :=
  addsUp_finds.optional t

theorem Locates.commaSeparated (hp : p.Locates) (closing : Token) :
    (commaSeparated p closing).Locates :=
  addsUp_finds.commaSeparated hp ((locates_accept _ _).bind fun _ => locates_pure _)

theorem Locates.statementsUntil (hp : p.Locates) (stop : Token → Bool) :
    (statementsUntil stop p).Locates :=
  addsUp_finds.statementsUntil hp stop

end

/-! ### Phrases -/

section
variable {e : Precedence → Parser Expr} {b : Parser Block}

/-- The error of a numeral without a value is that of the numeral, which has been read. -/
theorem locates_integerExpr : integerExpr.Locates := by
  intro c
  rw [integerExpr, run_bind]
  cases hc : c.rest with
  | nil =>
    simp only [accept, hc]
    exact .one (Cursor.currentLine_of_nil hc).symm (.refl c)
  | cons l rest =>
    simp only [accept, hc]
    cases Token.integer? l.token with
    | none => exact .one (Cursor.currentLine_of_cons hc).symm c.onward_advance
    | some text =>
      simp only [followedBy]
      cases Numeral.read text with
      | none => exact .one (Cursor.currentLine_of_cons hc).symm c.onward_advance
      | some value => exact .nothing c.onward_advance

theorem locates_startingWith (he : ∀ p, (e p).Locates) (hb : b.Locates) (form : StartForm) :
    (startingWith e b form).Locates := by
  cases form with
  | identifier => exact locates_identifier.bind fun _ => locates_pure _
  | integer => exact locates_integerExpr
  | boolean => exact (locates_accept _ _).bind fun _ => locates_pure _
  | prefixed => exact (locates_accept _ _).bind fun _ => (he _).bind fun _ => locates_pure _
  | group =>
    exact (locates_expect _).bind fun _ => (he _).bind fun e =>
      (locates_expect _).bind fun _ => locates_pure e
  | conditional =>
    refine (locates_expect _).bind fun line => (locates_expect _).bind fun _ => ?_
    refine (he _).bind fun condition => (locates_expect _).bind fun _ => ?_
    refine hb.bind fun consequence => (locates_optional _).bind fun more => ?_
    cases more with
    | false => exact locates_pure _
    | true => exact hb.bind fun alternative => locates_pure _
  | function =>
    refine (locates_expect _).bind fun line => (locates_expect _).bind fun _ => ?_
    exact (locates_identifier.commaSeparated _).bind fun parameters => hb.bind fun body =>
      locates_pure _

/-- A token that starts no expression is read, and its own line is reported. -/
theorem locates_firstOperand (he : ∀ p, (e p).Locates) (hb : b.Locates) :
    (firstOperand e b).Locates := by
  intro c
  rw [firstOperand, run_currentLine_bind, run_peek_bind]
  cases c.token? with
  | none => exact .one rfl (.refl c)
  | some t =>
    dsimp only
    split
    · exact .one rfl c.onward_advance
    · exact locates_startingWith he hb _ c

theorem locates_continuedBy (he : ∀ p, (e p).Locates) (left : Expr) (form : ContinueForm) :
    (continuedBy e left form).Locates := by
  cases form with
  | infixed => exact (locates_accept _ _).bind fun _ => (he _).bind fun _ => locates_pure _
  | call =>
    exact (locates_expect _).bind fun _ => ((he _).commaSeparated _).bind fun _ => locates_pure _

theorem locates_stmt (he : ∀ p, (e p).Locates) : (stmt e).Locates := by
  refine locates_peek.bind fun next => ?_
  split
  · exact (locates_expect _).bind fun _ => locates_identifier.bind fun _ =>
      (locates_expect _).bind fun _ => (he _).bind fun _ =>
        (locates_optional _).bind fun _ => locates_pure _
  · exact (locates_expect _).bind fun _ => (he _).bind fun _ =>
      (locates_optional _).bind fun _ => locates_pure _
  · exact locates_currentLine.bind fun _ => (he _).bind fun _ =>
      (locates_optional _).bind fun _ => locates_pure _

theorem locates_bracedBlock (he : ∀ p, (e p).Locates) : (bracedBlock e).Locates :=
  (locates_expect _).bind fun _ => ((locates_stmt he).statementsUntil _).bind fun _ =>
    (locates_expect _).bind fun _ => locates_pure _

end

/-- **Every phrase finds its errors in the order of their places.** -/
theorem locates_levels (limit n : Nat) :
    (∀ p, (expressionAt limit n p).Locates) ∧ (∀ p left, (continueAt limit n p left).Locates) ∧
      (blockAt limit n).Locates := by
  induction n with
  | zero =>
    refine ⟨fun p => locates_nestingTooDeep _, fun p left => locates_peek.bind fun next => ?_,
      locates_nestingTooDeep _⟩
    split
    · exact locates_pure left
    · exact locates_nestingTooDeep _
  | succ n ih =>
    obtain ⟨he, hloop, hb⟩ := ih
    refine ⟨fun p => (locates_firstOperand he hb).bind fun left => hloop p left, ?_,
      locates_bracedBlock he⟩
    refine fun p left => locates_peek.bind fun next => ?_
    split
    · exact locates_pure left
    · exact (locates_continuedBy he left _).bind fun longer => hloop p longer

theorem locates_programWithin (limit : Nat) : (programWithin limit).Locates :=
  (locates_stmt (locates_levels limit limit).1).statementsUntil _

end Parser

/-! ### Whole programs -/

theorem mem_lexemes_of_mem_errors {limit : Nat} {lexemes : List Lexeme} {e : ParseError}
    (he : e ∈ (parseLexemesWithin limit lexemes).errors) : ∃ l ∈ lexemes, e.line = l.line := by
  rw [errors_parseLexemesWithin] at he
  cases lexemes with
  | nil =>
    -- without a lexeme there is nothing that pays for an error
    obtain ⟨p, errors, c, hrun, -, hcount⟩ := Parser.programWithin_ends limit (.start [])
    have hnone : errors = [] := List.length_eq_zero_iff.mp (Nat.eq_zero_of_le_zero
      (Nat.le_trans (Nat.le_add_right _ _) hcount))
    simp [hrun, hnone, Outcome.errors] at he
  | cons l ls =>
    have hmem : e.line ∈ l.line :: (l :: ls).map Lexeme.line :=
      (Parser.locates_programWithin limit _).line_mem he
    rcases List.mem_cons.mp hmem with hline | hmem
    · exact ⟨l, List.mem_cons_self, hline⟩
    · obtain ⟨m, hm, hline⟩ := List.mem_map.mp hmem
      exact ⟨m, hm, hline.symm⟩

theorem pairwise_line_errors {limit : Nat} {lexemes : List Lexeme}
    (hs : (lexemes.map Lexeme.line).Pairwise (· ≤ ·)) :
    ((parseLexemesWithin limit lexemes).errors.map ParseError.line).Pairwise (· ≤ ·) := by
  have hlines : (Cursor.start lexemes).lines.Pairwise (· ≤ ·) := by
    cases lexemes with
    | nil => simp [Cursor.lines, Cursor.start]
    | cons l ls =>
      refine List.pairwise_cons.mpr ⟨?_, hs⟩
      exact List.forall_mem_cons.mpr ⟨Nat.le_refl _, fun n hn => List.rel_of_pairwise_cons hs hn⟩
  rw [errors_parseLexemesWithin]
  exact ((Parser.locates_programWithin limit _).pairwise_le hlines).tail

/-- Lines are counted from one, by the line feeds. -/
theorem line_le_of_mem_tokenize {source : String} {l : Lexeme} (hl : l ∈ tokenize source) :
    1 ≤ l.line ∧ l.line ≤ 1 + source.toList.count '\n' := by
  obtain ⟨ls, ls', hsplit⟩ := List.append_of_mem hl
  obtain ⟨before, after, hst⟩ := exists_stands 1 source.toList ls l ls' hsplit
  rw [hst.line_eq, hst.split, List.count_append]
  omega

/-- **Errors come in source order with real lines.**  Each error of a program is on the line
of one of its lexemes, and the lines of the errors never go down if those of the lexemes
never do.  Those of a program text never do, and they are between one and one more than the
number of line feeds in it. -/
theorem parse_errors_in_source_order (limit : Nat) :
    (∀ lexemes, (∀ e ∈ (parseLexemesWithin limit lexemes).errors, ∃ l ∈ lexemes, e.line = l.line) ∧
      ((lexemes.map Lexeme.line).Pairwise (· ≤ ·) →
        ((parseLexemesWithin limit lexemes).errors.map ParseError.line).Pairwise (· ≤ ·))) ∧
    ∀ source, ((tokenize source).map Lexeme.line).Pairwise (· ≤ ·) ∧
      ∀ e ∈ (parseLexemesWithin limit (tokenize source)).errors,
        1 ≤ e.line ∧ e.line ≤ 1 + source.toList.count '\n' := by
  refine ⟨fun lexemes => ⟨fun e he => mem_lexemes_of_mem_errors he, pairwise_line_errors⟩,
    fun source => ⟨(pairwise_line_lexemesFrom 1 source.toList).tail, fun e he => ?_⟩⟩
  obtain ⟨l, hl, hline⟩ := mem_lexemes_of_mem_errors he
  rw [hline]
  exact line_le_of_mem_tokenize hl

/-- A binding without a name, a numeral out of range in a block, and the end of input in a
binding in two blocks that are open: there are errors for the binding and for each block. -/
theorem parse_errors_in_source_order_unclosed :
    let lexemes := tokenize
      "let = 1;\nif (x) \x7b\n99999999999999999999;\nif (y) \x7b\nlet z\n\n"
    let errors := (parseLexemes lexemes).errors
    (lexemes.map Lexeme.line).Pairwise (· ≤ ·) ∧ errors.map ParseError.line = [1, 3, 5, 5, 5] ∧
      (errors.map ParseError.line).Pairwise (· ≤ ·) := by
  intro lexemes errors
  have hs : (lexemes.map Lexeme.line).Pairwise (· ≤ ·) := by decide +kernel
  exact ⟨hs, by decide +kernel, ((parse_errors_in_source_order maxNesting).1 lexemes).2 hs⟩

end ExprScript
