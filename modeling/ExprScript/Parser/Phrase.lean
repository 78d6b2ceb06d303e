import ExprScript.Numeral
import ExprScript.Parser.Repeat

/-!
# The phrases of the grammar

Each phrase is a parser made from parsers for the phrases inside it, which are
parameters here; `ExprScript.Parser.Grammar` ties the knot.  A phrase is chosen
by the next token alone, through the tables of `ExprScript.Precedence`, and then
reads that token itself, so each of these parsers can also be run on its own.
-/

namespace ExprScript.Parser

/-! ### First operands -/

def identifierExpr : Parser Expr := do
  return .identifier (← identifier)

/-- Reads a numeral, whose value must be in range. -/
def integerExpr : Parser Expr := do
  let (text, line) ← accept .integer Token.integer?
  match Numeral.read text with
  | some value => return .integer value line
  | none => fail (.invalidInteger text line)

def booleanExpr : Parser Expr := do
  let (value, line) ← accept .boolean Token.boolean?
  return .boolean value line

/-- Reads a prefix operator and its operand, which goes on only with calls. -/
def prefixedExpr (expression : Precedence → Parser Expr) : Parser Expr := do
  let (op, line) ← accept .prefixOperator Token.prefixOp?
  let operand ← expression .operand
  return .prefixed op operand line

/-- Reads an expression in parentheses, which leave no trace in the tree. -/
def groupExpr (expression : Precedence → Parser Expr) : Parser Expr := do
  let _ ← expect .leftParen
  let e ← expression .lowest
  let _ ← expect .rightParen
  return e

def conditionalExpr (expression : Precedence → Parser Expr) (block : Parser Block) :
    Parser Expr := do
  let line ← expect .ifWord
  let _ ← expect .leftParen
  let condition ← expression .lowest
  let _ ← expect .rightParen
  let consequence ← block
  if ← optional .elseWord then
    let alternative ← block
    return .conditional condition consequence (some alternative) line
  else
    return .conditional condition consequence none line

def functionExpr (block : Parser Block) : Parser Expr := do
  let line ← expect .fnWord
  let _ ← expect .leftParen
  let parameters ← commaSeparated identifier .rightParen
  let body ← block
  return .function parameters body line

def startingWith (expression : Precedence → Parser Expr) (block : Parser Block) :
    StartForm → Parser Expr
  | .identifier => identifierExpr
  | .integer => integerExpr
  | .boolean => booleanExpr
  | .prefixed => prefixedExpr expression
  | .group => groupExpr expression
  | .conditional => conditionalExpr expression block
  | .function => functionExpr block

/-- Reads an expression without what continues it.  A token that starts no
expression is read and is an error. -/
def firstOperand (expression : Precedence → Parser Expr) (block : Parser Block) :
    Parser Expr := do
  let line ← currentLine
  match ← peek with
  | none => fail (.unexpectedEnd .expression line)
  | some t =>
    match t.startForm? with
    | none =>
      advance
      fail (.notAnExpression t line)
    | some form => startingWith expression block form

/-! ### What continues an expression -/

/-- The way in which the next token continues an expression whose surroundings
bind with the given strength: only a token that binds more tightly does.  The
comparison is strict, so operators of one level group to the left. -/
def continuation (p : Precedence) (next : Option Token) : Option ContinueForm :=
  next.bind fun t => if p < t.precedence then t.continueForm? else none

def infixedExpr (expression : Precedence → Parser Expr) (left : Expr) : Parser Expr := do
  let ((op, p), line) ← accept .infixOperator fun t => t.infixOp?.map fun op => (op, t.precedence)
  let right ← expression p
  return .infixed left op right line

def callExpr (expression : Precedence → Parser Expr) (callee : Expr) : Parser Expr := do
  let line ← expect .leftParen
  let arguments ← commaSeparated (expression .lowest) .rightParen
  return .call callee arguments line

def continuedBy (expression : Precedence → Parser Expr) (left : Expr) :
    ContinueForm → Parser Expr
  | .infixed => infixedExpr expression left
  | .call => callExpr expression left

/-! ### Statements and blocks -/

/-- Reads a binding.  The terminator may be missing. -/
def bindStmt (expression : Precedence → Parser Expr) : Parser Stmt := do
  let line ← expect .letWord
  let target ← identifier
  let _ ← expect .assign
  let value ← expression .lowest
  let _ ← optional .semicolon
  return .bind target value line

def retStmt (expression : Precedence → Parser Expr) : Parser Stmt := do
  let line ← expect .returnWord
  let value ← expression .lowest
  let _ ← optional .semicolon
  return .ret value line

def exprStmt (expression : Precedence → Parser Expr) : Parser Stmt := do
  let line ← currentLine
  let value ← expression .lowest
  let _ ← optional .semicolon
  return .expr value line

def stmt (expression : Precedence → Parser Expr) : Parser Stmt := do
  match ← peek with
  | some .letWord => bindStmt expression
  | some .returnWord => retStmt expression
  | _ => exprStmt expression

/-- Reads statements in braces.  A statement that fails inside is recorded and
left out, and does not make the block fail. -/
def bracedBlock (expression : Precedence → Parser Expr) : Parser Block := do
  let line ← expect .leftBrace
  let statements ← statementsUntil (fun t => t = .rightBrace) (stmt expression)
  let _ ← expect .rightBrace
  return .mk statements line

end ExprScript.Parser
