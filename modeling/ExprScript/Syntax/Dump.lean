import ExprScript.Numeral
import ExprScript.Syntax

/-!
# Dumping a tree

A dump shows a tree node by node with the names of its fields, line numbers
included, on one line.  `record` and `variant` are the two shapes it is made
of.
-/

namespace ExprScript.Dump

/-- Fields in braces after the name of what they belong to. -/
def record (name : String) (fields : List (String × String)) : String :=
  let texts := fields.map fun field => field.1 ++ ": " ++ field.2
  name ++ " \x7b " ++ ", ".intercalate texts ++ " \x7d"

def variant (name value : String) : String :=
  name ++ "(" ++ value ++ ")"

def list (values : List String) : String :=
  "[" ++ ", ".intercalate values ++ "]"

/-- A character as it stands between quotes: quotes, backslashes and the
control characters of ASCII are escaped. -/
def quotedChar (c : Char) : String :=
  if c = '"' then "\\\""
  else if c = '\\' then "\\\\"
  else if c = '\n' then "\\n"
  else if c = '\r' then "\\r"
  else if c = '\t' then "\\t"
  else if c.toNat = 0 then "\\0"
  else if c.toNat < 32 ∨ c.toNat = 127 then
    "\\u\x7b" ++ String.ofList (Nat.toDigits 16 c.toNat) ++ "\x7d"
  else String.singleton c

def quoted (text : String) : String :=
  "\"" ++ String.join (text.toList.map quotedChar) ++ "\""

end Dump

open Dump

def PrefixOp.dump : PrefixOp → String
  | .not => "Not"
  | .negate => "Negate"

def InfixOp.dump : InfixOp → String
  | .add => "Add"
  | .sub => "Sub"
  | .mul => "Mul"
  | .div => "Div"
  | .less => "Less"
  | .greater => "Greater"
  | .equal => "Equal"
  | .notEqual => "NotEqual"

def Identifier.dump (id : Identifier) : String :=
  record "Identifier" [("name", quoted id.name), ("line", id.line.repr)]

mutual

def Expr.dump : Expr → String
  | .identifier id => variant "Identifier" id.dump
  | .integer value line =>
    record "IntegerLiteral" [("value", Numeral.write value), ("line", line.repr)]
  | .boolean value line =>
    record "BooleanLiteral" [("value", if value then "true" else "false"), ("line", line.repr)]
  | .prefixed op operand line =>
    record "Prefix" [("operator", op.dump), ("right", operand.dump), ("line", line.repr)]
  | .infixed left op right line =>
    record "Infix"
      [("left", left.dump), ("operator", op.dump), ("right", right.dump), ("line", line.repr)]
  | .conditional condition consequence none line =>
    record "If"
      [("condition", condition.dump), ("consequence", consequence.dump),
        ("alternative", "None"), ("line", line.repr)]
  | .conditional condition consequence (some alternative) line =>
    record "If"
      [("condition", condition.dump), ("consequence", consequence.dump),
        ("alternative", variant "Some" alternative.dump), ("line", line.repr)]
  | .function parameters body line =>
    record "FunctionLiteral"
      [("parameters", list (parameters.map Identifier.dump)), ("body", body.dump),
        ("line", line.repr)]
  | .call callee arguments line =>
    record "Call"
      [("callee", callee.dump), ("arguments", list (Expr.dumps arguments)), ("line", line.repr)]

def Expr.dumps : List Expr → List String
  | [] => []
  | e :: es => e.dump :: Expr.dumps es

def Stmt.dump : Stmt → String
  | .bind target value line =>
    record "Let" [("name", target.dump), ("value", value.dump), ("line", line.repr)]
  | .ret value line => record "Return" [("value", value.dump), ("line", line.repr)]
  | .expr value line => record "Expression" [("expr", value.dump), ("line", line.repr)]
  | .block body => variant "Block" body.dump

def Stmt.dumps : List Stmt → List String
  | [] => []
  | s :: ss => s.dump :: Stmt.dumps ss

def Block.dump : Block → String
  | .mk statements line =>
    record "BlockStatement" [("statements", list (Stmt.dumps statements)), ("line", line.repr)]

end

end ExprScript
