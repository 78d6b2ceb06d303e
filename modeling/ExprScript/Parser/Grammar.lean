import ExprScript.Parser.Phrase

/-!
# The grammar with bounded nesting

Expressions and blocks contain each other to a bounded depth.  The parsers here
take the number of levels that are left: an expression or a block takes one for
itself, and every operator or call that continues an expression takes one more
for the rest of that expression.  Where no level is left the phrase fails with
`nestingTooDeep`.  The recursion is on the levels left, so it ends on every
input, and its depth does not depend on the input.

`expressionWithin`, `blockWithin`, `statementWithin` and `programWithin` start
with all of a given number of levels, and the parsers without the suffix with
`maxNesting`.
-/

namespace ExprScript

def maxNesting : Nat := 256

namespace Parser

/-- Fails because no level of nesting is left; reads nothing. -/
def nestingTooDeep {α : Type} (limit : Nat) : Parser α :=
  failAt fun c => .nestingTooDeep limit c.currentLine

mutual

/-- Reads an expression whose operators bind more tightly than `p`. -/
def expressionAt (limit : Nat) : Nat → Precedence → Parser Expr
  | 0, _ => nestingTooDeep limit
  | levels + 1, p => do
    let left ← firstOperand (expressionAt limit levels) (blockAt limit levels)
    continueAt limit levels p left

/-- Reads all that continues the expression `left` with operators that bind
more tightly than `p`. -/
def continueAt (limit : Nat) : Nat → Precedence → Expr → Parser Expr
  | 0, p, left => do
    match continuation p (← peek) with
    | none => return left
    | some _ => nestingTooDeep limit
  | levels + 1, p, left => do
    match continuation p (← peek) with
    | none => return left
    | some form =>
      let longer ← continuedBy (expressionAt limit levels) left form
      continueAt limit levels p longer

def blockAt (limit : Nat) : Nat → Parser Block
  | 0 => nestingTooDeep limit
  | levels + 1 => bracedBlock (expressionAt limit levels)

end

def expressionWithin (limit : Nat) (p : Precedence) : Parser Expr :=
  expressionAt limit limit p

def blockWithin (limit : Nat) : Parser Block :=
  blockAt limit limit

def statementWithin (limit : Nat) : Parser Stmt :=
  stmt (expressionAt limit limit)

/-- Reads statements to the end of input.  It never fails: the errors of the
statements are recorded. -/
def programWithin (limit : Nat) : Parser Program :=
  statementsUntil (fun _ => false) (statementWithin limit)

def expression (p : Precedence) : Parser Expr :=
  expressionWithin maxNesting p

def block : Parser Block :=
  blockWithin maxNesting

def statement : Parser Stmt :=
  statementWithin maxNesting

def program : Parser Program :=
  programWithin maxNesting

end Parser

end ExprScript
