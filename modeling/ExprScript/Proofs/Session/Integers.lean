import ExprScript.Proofs.Evaluation.Arithmetic
import ExprScript.Proofs.Evaluation.Plain
import ExprScript.Proofs.Lexer.Spelling
import ExprScript.Proofs.Parser.Correctness
import ExprScript.Value.Text

/-!
# Integers as they are shown

An integer that is shown can be entered again.  A negative one is not read as one numeral but
as an operator and its operand: the digits are those of the opposite number, and evaluation
takes the opposite of that.  The least integer has no opposite in the range, so its digits are
no literal, and the text is refused.

* `tokenize_numeral`, `tokenize_minus`: the lexemes of a shown integer.
* `Numeral.write_of_neg`: the digits of a negative integer.
* `parse_numeral`, `parse_minus_numeral`: its program.
* `Session.evaluateSource_arithmetic`: the answer to an arithmetic expression.
-/

namespace ExprScript

/-! ### Lexemes -/

theorem tokenize_numeral {text : String} (h : IsNumeral text) :
    tokenize text = [⟨.integer text, 1⟩] := by
  obtain ⟨c, cs, htext, hc, hcs⟩ := h
  have hlexemes := lexemesFrom_of_spelling (.numeral hc hcs) 1
  rwa [← htext, String.ofList_toList] at hlexemes

/-- A minus sign is a token by itself, whatever comes after it. -/
theorem tokenize_minus (text : String) :
    tokenize ("-" ++ text) = ⟨.minus, 1⟩ :: tokenize text := by
  have hsign : (Token.ofSymbol '-').Spelling '-' [] := .symbol rfl rfl rfl
  rw [tokenize, String.toList_append]
  exact lexemesFrom_spelling hsign (fun _ _ => rfl) 1

namespace Numeral

/-- Of the negative integers only the least one has no opposite. -/
theorem toInt_neg_of_neg {n : Int64} (hn : n.toInt < 0) (hleast : n ≠ Int64.minValue) :
    (-n).toInt = -n.toInt := by
  have hne : n.toInt ≠ -2 ^ 63 := fun h =>
    hleast (Int64.toInt_inj.mp (h.trans Int64.toInt_minValue.symm))
  have hle := n.le_toInt
  rw [Int64.toInt_neg]
  exact Int.bmod_eq_of_le (by omega) (by omega)

/-- A negative integer has a sign, and then the digits of its opposite. -/
theorem write_of_neg {n : Int64} (hn : n.toInt < 0) (hleast : n ≠ Int64.minValue) :
    write n = "-" ++ write (-n) := by
  have hopposite := toInt_neg_of_neg hn hleast
  obtain ⟨k, hk⟩ := Int.eq_negSucc_of_lt_zero hn
  have hdigits : write (-n) = (-n).toInt.toNat.repr := write_eq (by omega)
  rw [hdigits, hopposite, write, hk]
  rfl

end Numeral

/-! ### Programs -/

theorem parse_of_accepts {source : String} {l : Lexeme} {rest : List Lexeme} {e : Expr}
    {c : Cursor} (hl : tokenize source = l :: rest) (hs : l.token.startForm?.isSome)
    (he : (Parser.expression .lowest).Accepts (.start (tokenize source)) e c)
    (hc : c.rest = []) : parse source = ⟨[.expr e l.line], []⟩ :=
  parseLexemesWithin_eq_iff.mpr ⟨c, Parser.accepts_programWithin_expr hl hs he hc⟩

namespace Parser

variable {n : Int64} {line line' : Nat} {c : Cursor}

/-- A numeral is an operand of any operator. -/
theorem accepts_numeral (hn : 0 ≤ n.toInt) (limit levels : Nat) (p : Precedence)
    (hc : c.rest = [⟨.integer (Numeral.write n), line⟩]) :
    (expressionAt limit (levels + 1) p).Accepts c (.integer n line) c.advance := by
  have hend : Ends p c.advance.rest := by simp [Ends, Cursor.rest_advance hc]
  exact accepts_expressionAt hc rfl (accepts_integerExpr (Numeral.read_write hn) hc) hend

/-- The sign takes one more level. -/
theorem accepts_minus_numeral (hn : 0 ≤ n.toInt) (limit levels : Nat) (p : Precedence)
    (hc : c.rest = [⟨.minus, line⟩, ⟨.integer (Numeral.write n), line'⟩]) :
    (expressionAt limit (levels + 2) p).Accepts c (.prefixed .negate (.integer n line') line)
      c.advance.advance := by
  have hnumeral := Cursor.rest_advance hc
  have hend : Ends p c.advance.advance.rest := by simp [Ends, Cursor.rest_advance hnumeral]
  have hsign : (accept .prefixOperator Token.prefixOp?).Accepts c (.negate, line) c.advance :=
    accepts_accept.mpr ⟨.minus, by rw [hc, hnumeral], rfl, rfl⟩
  refine accepts_expressionAt hc rfl (accepts_bind.mpr ⟨_, c.advance, hsign, ?_⟩) hend
  refine accepts_bind.mpr ⟨_, _, accepts_numeral hn limit levels .operand hnumeral, ?_⟩
  exact accepts_pure.mpr ⟨rfl, rfl⟩

end Parser

theorem parse_numeral {n : Int64} (hn : 0 ≤ n.toInt) :
    parse (Numeral.write n) = ⟨[.expr (.integer n 1) 1], []⟩ := by
  have hlexemes := tokenize_numeral (Numeral.isNumeral_write hn)
  have hrest : (Cursor.start (tokenize (Numeral.write n))).rest = _ := hlexemes
  exact parse_of_accepts hlexemes rfl (Parser.accepts_numeral hn _ _ _ hrest)
    (Cursor.rest_advance hrest)

theorem parse_minus_numeral {n : Int64} (hn : 0 ≤ n.toInt) :
    parse ("-" ++ Numeral.write n) = ⟨[.expr (.prefixed .negate (.integer n 1) 1) 1], []⟩ := by
  have hlexemes := tokenize_minus (Numeral.write n)
  rw [tokenize_numeral (Numeral.isNumeral_write hn)] at hlexemes
  have hrest : (Cursor.start (tokenize ("-" ++ Numeral.write n))).rest = _ := hlexemes
  exact parse_of_accepts hlexemes rfl (Parser.accepts_minus_numeral hn _ _ _ hrest)
    (Cursor.rest_advance (Cursor.rest_advance hrest))

theorem errors_parse_least :
    (parse (Numeral.write Int64.minValue)).errors =
      [.invalidInteger "9223372036854775808" 1] := by
  decide +kernel

/-! ### Answers -/

/-- A program that is one expression has the value of the expression, unless that is a pending
return. -/
theorem Task.run_program_expr {limit : Nat} {c : Context} {h h' : Heap} {e : Expr} {v : Value}
    (line : Nat) (he : ((Task.expr e).run limit c).run h = (v, h')) :
    ((Task.program [.expr e line]).run limit c).run h = (v.unwrapReturn, h') := by
  have hstmt : ((Task.stmt (.expr e line)).run limit c).run h = (v, h') := he
  have hstmts : ((Task.stmts .null [.expr e line]).run limit c).run h = (v, h') := by
    rw [run_eq, plan, follow, hstmt]
    dsimp only
    split
    · rfl
    · rfl
  rw [run_eq, plan, follow, hstmts]

/-- An arithmetic expression is answered with what its exact value wraps to, wherever it is
entered, and nothing changes. -/
theorem Session.evaluateSource_arithmetic {s : Session} {source : String} {e : Expr} {line : Nat}
    (he : e.Arithmetic) (hp : parse source = ⟨[.expr e line], []⟩) :
    s.evaluateSource source = (.ok (.ofExact e.exactValue?), s) := by
  have hrun := Task.run_program_expr line (he.run_eq maxCallDepth s.current s.heap)
  have hvalue : (Value.ofExact e.exactValue?).unwrapReturn = .ofExact e.exactValue? := by
    cases e.exactValue? with
    | none => rfl
    | some k => rfl
  rw [evaluateSource_of_parse (by rw [hp]), config, hp, Config.outcome, hrun, hvalue]

/-- **Shown integers read back**, all but the least one.  Whatever has been evaluated before,
and wherever the text of an integer is entered, the answer is that integer, and nothing changes.
The text of the least integer is refused: the digits behind its sign are no literal. -/
theorem shown_integers_read_back (s : Session) (n : Int64) :
    s.evaluateSource (Value.integer n).text =
      (if n = Int64.minValue then .error [.invalidInteger "9223372036854775808" 1]
        else .ok (.integer n), s) := by
  rw [Value.text]
  by_cases hleast : n = Int64.minValue
  · rw [if_pos hleast, hleast, Session.evaluateSource_of_errors (by simp [errors_parse_least]),
      errors_parse_least]
  · rw [if_neg hleast]
    by_cases hneg : n.toInt < 0
    · have hopposite := Numeral.toInt_neg_of_neg hneg hleast
      have hparse := parse_minus_numeral (by omega : 0 ≤ (-n).toInt)
      rw [← Numeral.write_of_neg hneg hleast] at hparse
      have hvalue : Value.ofExact (some (-(-n).toInt)) = .integer n := by
        rw [Value.ofExact, hopposite, Int.neg_neg, Int64.ofInt_toInt]
      rw [Session.evaluateSource_arithmetic (.negate 1 (.integer (-n) 1)) hparse, ← hvalue]
      rfl
    · have hparse := parse_numeral (Int.not_lt.mp hneg)
      rw [Session.evaluateSource_arithmetic (.integer n 1) hparse, Expr.exactValue?,
        Value.ofExact, Int64.ofInt_toInt]

/-- The least integer is shown as a text that is refused. -/
theorem least_integer_does_not_read_back :
    let answer := (Session.start.evaluateSource "-9223372036854775808").1
    (Value.integer Int64.minValue).text = "-9223372036854775808" ∧
      answer = .error [.invalidInteger "9223372036854775808" 1] ∧
      answer ≠ .ok (.integer Int64.minValue) := by
  have htext : Numeral.write Int64.minValue = "-9223372036854775808" := by decide +kernel
  have herrors := htext ▸ errors_parse_least
  have hanswer : (Session.start.evaluateSource "-9223372036854775808").1 =
      .error [.invalidInteger "9223372036854775808" 1] := by
    rw [Session.evaluateSource_of_errors (by simp [herrors]), herrors]
  exact ⟨htext, hanswer, by simp [hanswer]⟩

end ExprScript
