import ExprScript.Numeral
import ExprScript.Syntax

/-!
# The written form of a tree

`Expr.text`, `Stmt.text` and `Block.text` write a tree on one line.  Every
operation is put in parentheses, so the form shows how operators were grouped;
line numbers are left out.  The statements of a program are written one after
the other with nothing between them.
-/

namespace ExprScript

def PrefixOp.text : PrefixOp → String
  | .not => "!"
  | .negate => "-"

def InfixOp.text : InfixOp → String
  | .add => "+"
  | .sub => "-"
  | .mul => "*"
  | .div => "/"
  | .less => "<"
  | .greater => ">"
  | .equal => "=="
  | .notEqual => "!="

def boolText : Bool → String
  | true => "true"
  | false => "false"

/-- Texts in a row, separated by a comma and a space. -/
def commaJoined : List String → String
  | [] => ""
  | [text] => text
  | text :: texts => text ++ ", " ++ commaJoined texts

def parametersText (parameters : List Identifier) : String :=
  commaJoined (parameters.map Identifier.name)

mutual

def Expr.text : Expr → String
  | .identifier id => id.name
  | .integer value _ => Numeral.write value
  | .boolean value _ => boolText value
  | .prefixed op operand _ => "(" ++ op.text ++ operand.text ++ ")"
  | .infixed left op right _ => "(" ++ left.text ++ " " ++ op.text ++ " " ++ right.text ++ ")"
  | .conditional condition consequence none _ => "if " ++ condition.text ++ " " ++ consequence.text
  | .conditional condition consequence (some alternative) _ =>
    "if " ++ condition.text ++ " " ++ consequence.text ++ " else " ++ alternative.text
  | .function parameters body _ => "fn(" ++ parametersText parameters ++ ") " ++ body.text
  | .call callee arguments _ => callee.text ++ "(" ++ commaJoined (Expr.texts arguments) ++ ")"

def Expr.texts : List Expr → List String
  | [] => []
  | e :: es => e.text :: Expr.texts es

/-- The written form of a statement; an expression has no terminator. -/
def Stmt.text : Stmt → String
  | .bind target value _ => "let " ++ target.name ++ " = " ++ value.text ++ ";"
  | .ret value _ => "return " ++ value.text ++ ";"
  | .expr value _ => value.text
  | .block body => body.text

/-- The written form of a block: its statements, each with a space after it. -/
def Block.text : Block → String
  | .mk statements _ => "\x7b " ++ Stmt.spacedText statements ++ "\x7d"

def Stmt.spacedText : List Stmt → String
  | [] => ""
  | s :: ss => s.text ++ " " ++ Stmt.spacedText ss

end

def Program.text : Program → String
  | [] => ""
  | s :: ss => s.text ++ Program.text ss

end ExprScript
