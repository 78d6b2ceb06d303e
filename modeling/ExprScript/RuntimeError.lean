import ExprScript.Syntax.Text
import ExprScript.Value

/-!
# Runtime errors

The causes for which evaluation fails, and their messages.  An error becomes a
value by its message alone.
-/

namespace ExprScript

inductive RuntimeError where
  | typeMismatch (left : Kind) (op : InfixOp) (right : Kind)
  | unknownPrefixOperator (op : PrefixOp) (operand : Kind)
  | unknownInfixOperator (left : Kind) (op : InfixOp) (right : Kind)
  | identifierNotFound (name : String)
  | notAFunction (kind : Kind)
  | wrongArgumentCount (expected found : Nat)
  | divisionByZero
  | recursionLimitExceeded (limit : Nat)
deriving DecidableEq, Repr

namespace RuntimeError

def message : RuntimeError → String
  | typeMismatch left op right =>
    "type mismatch: " ++ left.text ++ " " ++ op.text ++ " " ++ right.text
  | unknownPrefixOperator op operand => "unknown operator: " ++ op.text ++ operand.text
  | unknownInfixOperator left op right =>
    "unknown operator: " ++ left.text ++ " " ++ op.text ++ " " ++ right.text
  | identifierNotFound name => "identifier not found: " ++ name
  | notAFunction kind => "not a function: " ++ kind.text
  | wrongArgumentCount expected found =>
    "wrong number of arguments: want=" ++ expected.repr ++ ", got=" ++ found.repr
  | divisionByZero => "division by zero"
  | recursionLimitExceeded limit => "maximum recursion depth exceeded: limit=" ++ limit.repr

def toValue (e : RuntimeError) : Value :=
  .error e.message

end RuntimeError

end ExprScript
