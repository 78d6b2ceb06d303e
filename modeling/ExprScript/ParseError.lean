import ExprScript.Token
import ExprScript.Syntax.Dump

/-!
# Parse errors

A parse error says what went wrong and on which line.  What the parser would
have accepted instead is an `Expectation`, so that errors are compared by
cause; the wording is in `ParseError.message`.
-/

namespace ExprScript

/-- What the grammar allows at a place where something else was found. -/
inductive Expectation where
  | token (token : Token)
  | identifier
  | expression
  | integer
  | boolean
  | prefixOperator
  | infixOperator
  /-- Another item of a comma-separated list, or the token that closes it. -/
  | commaOr (closing : Token)
deriving DecidableEq, Repr

/-- The wording of an expectation: fixed tokens are quoted. -/
def Expectation.text : Expectation → String
  | .token t => "'" ++ t.text ++ "'"
  | .identifier => "an identifier"
  | .expression => "an expression"
  | .integer => "an integer"
  | .boolean => "a boolean"
  | .prefixOperator => "'!' or '-'"
  | .infixOperator => "an operator"
  | .commaOr closing => "',' or '" ++ closing.text ++ "'"

inductive ParseError where
  | unexpectedToken (expected : Expectation) (found : Token) (line : Nat)
  | unexpectedEnd (expected : Expectation) (line : Nat)
  /-- No expression starts with this token. -/
  | notAnExpression (found : Token) (line : Nat)
  | nestingTooDeep (limit : Nat) (line : Nat)
  /-- The numeral has no value in the range of the integers. -/
  | invalidInteger (text : String) (line : Nat)
deriving DecidableEq, Repr

namespace ParseError

def line : ParseError → Nat
  | unexpectedToken _ _ line => line
  | unexpectedEnd _ line => line
  | notAnExpression _ line => line
  | nestingTooDeep _ line => line
  | invalidInteger _ line => line

def reason : ParseError → String
  | unexpectedToken expected found _ =>
    "Expected " ++ expected.text ++ ", found '" ++ found.text ++ "'."
  | unexpectedEnd expected _ => "Expected " ++ expected.text ++ ", found end of input."
  | notAnExpression found _ => "No prefix parse function for '" ++ found.text ++ "'."
  | nestingTooDeep limit _ => "Nesting exceeds the maximum depth of " ++ limit.repr ++ "."
  | invalidInteger text _ => "Could not parse " ++ text ++ " as a 64-bit integer."

/-- The message for an error: its line, then its cause. -/
def message (e : ParseError) : String :=
  "Error on line " ++ e.line.repr ++ ": " ++ e.reason

open Dump in
def dump : ParseError → String
  | unexpectedToken expected found line =>
    record "UnexpectedToken"
      [("expected", quoted expected.text), ("found", quoted found.text), ("line", line.repr)]
  | unexpectedEnd expected line =>
    record "UnexpectedEndOfInput" [("expected", quoted expected.text), ("line", line.repr)]
  | notAnExpression found line =>
    record "NoPrefixParseFunction" [("token", quoted found.text), ("line", line.repr)]
  | nestingTooDeep limit line =>
    record "NestingTooDeep" [("limit", limit.repr), ("line", line.repr)]
  | invalidInteger text line =>
    record "InvalidIntegerLiteral" [("literal", quoted text), ("line", line.repr)]

end ParseError

end ExprScript
