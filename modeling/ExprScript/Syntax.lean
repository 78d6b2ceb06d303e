/-!
# Syntax trees

The language is made of expressions: conditionals and functions are
expressions, and a block of statements gives the value of its last one.  Every
node carries the line of its own token: the first one of a statement, the
operator of an operation, the `(` of a call, the brace that opens a block.
-/

namespace ExprScript

structure Identifier where
  name : String
  line : Nat
deriving DecidableEq, Repr

/-- Operators with one operand, written in front of it. -/
inductive PrefixOp where
  | not
  | negate
deriving DecidableEq, Repr

/-- Operators with two operands, written between them. -/
inductive InfixOp where
  | add
  | sub
  | mul
  | div
  | less
  | greater
  | equal
  | notEqual
deriving DecidableEq, Repr

mutual

/-- An expression.  Parentheses around an expression leave no trace. -/
inductive Expr where
  | identifier (id : Identifier)
  | integer (value : Int64) (line : Nat)
  | boolean (value : Bool) (line : Nat)
  | prefixed (op : PrefixOp) (operand : Expr) (line : Nat)
  | infixed (left : Expr) (op : InfixOp) (right : Expr) (line : Nat)
  | conditional (condition : Expr) (consequence : Block) (alternative : Option Block) (line : Nat)
  | function (parameters : List Identifier) (body : Block) (line : Nat)
  | call (callee : Expr) (arguments : List Expr) (line : Nat)

/-- A statement.  A block may stand as a statement of its own in a tree, though
the grammar has no such statement. -/
inductive Stmt where
  | bind (target : Identifier) (value : Expr) (line : Nat)
  | ret (value : Expr) (line : Nat)
  | expr (value : Expr) (line : Nat)
  | block (body : Block)

inductive Block where
  | mk (statements : List Stmt) (line : Nat)

end

abbrev Program := List Stmt

def Block.statements : Block → List Stmt
  | .mk statements _ => statements

def Block.line : Block → Nat
  | .mk _ line => line

def Expr.line : Expr → Nat
  | .identifier id => id.line
  | .integer _ line => line
  | .boolean _ line => line
  | .prefixed _ _ line => line
  | .infixed _ _ _ line => line
  | .conditional _ _ _ line => line
  | .function _ _ line => line
  | .call _ _ line => line

def Stmt.line : Stmt → Nat
  | .bind _ _ line => line
  | .ret _ line => line
  | .expr _ line => line
  | .block body => body.line

end ExprScript
